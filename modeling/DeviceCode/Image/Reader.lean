import DeviceCode.Image

/-!
# Reading images

`LoadedImage.read` takes the bytes of an image apart. It trusts nothing: every offset must lie in
its section and every section must be as long as the header says.
-/

namespace DeviceCode

inductive ImageError where
  /-- The image ends too early. -/
  | truncated (position needed : Nat)
  /-- The offset of some item lies outside its section. -/
  | badOffset (what : String) (offset : UInt32)
  | sectionLength (name : String) (declared : UInt32) (actual : Nat)
  | trailingBytes (extra : Nat)
  deriving DecidableEq, Inhabited

namespace ImageError

def message : ImageError → String
  | truncated position needed =>
    "image truncated: " ++ toString needed ++ " bytes needed at offset " ++ toString position
  | badOffset what offset =>
    what ++ " offset " ++ toString offset.toNat ++ " lies outside its section"
  | sectionLength name declared actual =>
    name ++ " section declares " ++ toString declared.toNat ++ " bytes but " ++ toString actual ++
      " were read"
  | trailingBytes extra => toString extra ++ " trailing bytes after the last section"

end ImageError

/-- A method of a loaded image, and where its code starts. -/
structure LoadedMethod extends MethodRecord where
  codeOffset : UInt32
  deriving DecidableEq, Inhabited

/-- An image that was taken apart. -/
structure LoadedImage where
  header : ImageHeader
  methods : Array LoadedMethod
  classes : List ClassRecord
  descriptors : List (List UInt8)
  dispatch : List DispatchRecord
  statics : StaticsRecord
  deriving DecidableEq, Inhabited

abbrev CursorM := StateT Nat (Except ImageError)

namespace CursorM

def take (bytes : Array UInt8) (n : Nat) : CursorM (Array UInt8) := fun position =>
  if position + n ≤ bytes.size then .ok (bytes.extract position (position + n), position + n)
  else .error (.truncated position n)

def byte (bytes : Array UInt8) : CursorM UInt8 := fun position =>
  match bytes[position]? with
  | some b => .ok (b, position + 1)
  | none => .error (.truncated position 1)

def word (bytes : Array UInt8) : CursorM UInt16 := fun position =>
  match bytes[position]?, bytes[position + 1]? with
  | some b₀, some b₁ => .ok (Word.ofBytes16 b₀ b₁, position + 2)
  | _, _ => .error (.truncated position 2)

def double (bytes : Array UInt8) : CursorM UInt32 := fun position =>
  match bytes[position]?, bytes[position + 1]?, bytes[position + 2]?, bytes[position + 3]? with
  | some b₀, some b₁, some b₂, some b₃ => .ok (Word.ofBytes32 b₀ b₁ b₂ b₃, position + 4)
  | _, _, _, _ => .error (.truncated position 4)

def signedWord (bytes : Array UInt8) : CursorM Int16 := UInt16.toInt16 <$> word bytes

def many {α : Type} (n : Nat) (item : CursorM α) : CursorM (List α) :=
  (List.replicate n ()).mapM fun _ => item

end CursorM

/-- Where a section starts and ends. -/
structure Bounds where
  start : Nat
  stop : Nat
  deriving DecidableEq, Inhabited

namespace Bounds

/-- The position of an item of the section. It may be the end of the section. -/
def check (b : Bounds) (what : String) (offset : UInt32) : Except ImageError Nat :=
  if b.start ≤ offset.toNat ∧ offset.toNat ≤ b.stop then .ok offset.toNat
  else .error (.badOffset what offset)

/-- The furthest position that was read must be the end of the section. -/
def finish (b : Bounds) (name : String) (furthest : Nat) : Except ImageError Unit :=
  if furthest = b.stop then .ok ()
  else .error (.sectionLength name (b.stop - b.start).toUInt32 (furthest - b.start))

end Bounds

namespace LoadedImage

/-! ## Sections -/

def readSlot (bytes : Array UInt8) : CursorM SlotRecord := do
  let tag ← CursorM.byte bytes
  let classRef ← CursorM.signedWord bytes
  return { tag, classRef }

def readSlots (bytes : Array UInt8) : CursorM (List SlotRecord) := do
  let count ← CursorM.word bytes
  CursorM.many count.toNat (readSlot bytes)

/-- A method: its metadata and its code stand at two positions of their own. Tells where the code
ends. -/
def readMethod (bytes : Array UInt8) (b : Bounds) (start : Nat) (codeOffset : UInt32) :
    Except ImageError (LoadedMethod × Nat) := do
  let read : CursorM (UInt8 × Int16 × List SlotRecord × List SlotRecord × UInt16 × UInt32) := do
    let retTag ← CursorM.byte bytes
    let retClass ← CursorM.signedWord bytes
    let args ← readSlots bytes
    let locals ← readSlots bytes
    let maxStack ← CursorM.word bytes
    let length ← CursorM.double bytes
    return (retTag, retClass, args, locals, maxStack, length)
  let ((retTag, retClass, args, locals, maxStack, length), _) ← read start
  let codeStart ← b.check "method code" codeOffset
  let (code, codeEnd) ← CursorM.take bytes length.toNat codeStart
  if b.stop < codeEnd then throw (.badOffset "method code" codeOffset)
  return ({ retTag, retClass, args, locals, maxStack, code, codeOffset }, codeEnd)

def readFields (bytes : Array UInt8) (count : Nat) : CursorM (List FieldRecord) :=
  CursorM.many count do
    let tag ← CursorM.byte bytes
    let offset ← CursorM.word bytes
    let classRef ← CursorM.signedWord bytes
    return { tag, offset, classRef }

def readDispatch (bytes : Array UInt8) : CursorM DispatchRecord := do
  let count ← CursorM.word bytes
  let params ← CursorM.word bytes
  let implementors ← CursorM.many count.toNat do
    let classId ← CursorM.word bytes
    let method ← CursorM.word bytes
    return { classId, method }
  return { params, implementors }

/-- Reads a table: a count, then as many entries, each of which tells how far it reached. Gives the
items and the furthest position that was read. -/
def readTable {α : Type} (bytes : Array UInt8) (b : Bounds) (entry : CursorM (α × Nat)) :
    Except ImageError (List α × Nat) := do
  let read : CursorM (List (α × Nat)) := do
    let count ← CursorM.word bytes
    CursorM.many count.toNat entry
  let (items, stop) ← read b.start
  return (items.map (·.1), items.foldl (fun furthest item => max furthest item.2) stop)

def readMethods (bytes : Array UInt8) (b : Bounds) : Except ImageError (Array LoadedMethod) := do
  let (methods, furthest) ← readTable bytes b do
    let start ← b.check "method metadata" (← CursorM.double bytes)
    let codeOffset ← CursorM.double bytes
    readMethod bytes b start codeOffset
  b.finish "methods" furthest
  return methods.toArray

def readClasses (bytes : Array UInt8) (b : Bounds) : Except ImageError (List ClassRecord) := do
  let (classes, furthest) ← readTable bytes b do
    let size ← CursorM.word bytes
    let count ← CursorM.word bytes
    let start ← b.check "field records" (← CursorM.double bytes)
    let (fields, stop) ← readFields bytes count.toNat start
    return ({ size, fields }, stop)
  b.finish "classes" furthest
  return classes

/-- The bytes from each start to the next one, and from the last to the end of the section. -/
def slices (bytes : Array UInt8) (stop : Nat) (starts : List Nat) :
    Except ImageError (List (List UInt8)) :=
  (starts.zip (starts.tail ++ [stop])).mapM fun (start, next) =>
    if next < start then throw (.badOffset "descriptor" start.toUInt32)
    else return (bytes.extract start next).toList

def readDescriptors (bytes : Array UInt8) (b : Bounds) : Except ImageError (List (List UInt8)) := do
  let (starts, stop) ← readTable bytes b do
    let start ← b.check "descriptor" (← CursorM.double bytes)
    return (start, 0)
  let descriptors ← slices bytes b.stop starts
  b.finish "descriptors" (if starts.isEmpty then stop else max stop b.stop)
  return descriptors

def readDispatches (bytes : Array UInt8) (b : Bounds) :
    Except ImageError (List DispatchRecord) := do
  let (entries, furthest) ← readTable bytes b do
    let start ← b.check "dispatch entry" (← CursorM.double bytes)
    readDispatch bytes start
  b.finish "dispatch" furthest
  return entries

def readStatics (bytes : Array UInt8) (b : Bounds) : Except ImageError StaticsRecord := do
  let read : CursorM StaticsRecord := do
    let size ← CursorM.double bytes
    let count ← CursorM.word bytes
    let entries ← CursorM.many count.toNat do
      let tag ← CursorM.byte bytes
      let offset ← CursorM.word bytes
      let descriptor ← CursorM.word bytes
      let flags ← CursorM.byte bytes
      return { tag, offset, descriptor, host := flags &&& StaticRecord.hostFlag != 0 }
    return { size, entries }
  let (statics, stop) ← read b.start
  b.finish "statics" stop
  return statics

/-! ## The image -/

def readHeader (bytes : Array UInt8) : CursorM ImageHeader := do
  let scanInterval ← CursorM.double bytes
  let entryOffset ← CursorM.double bytes
  let methods ← CursorM.double bytes
  let classes ← CursorM.double bytes
  let descriptors ← CursorM.double bytes
  let dispatch ← CursorM.double bytes
  let statics ← CursorM.double bytes
  let entryClass ← CursorM.double bytes
  return {
    scanInterval, entryOffset, entryClass := entryClass.toInt32
    sections := { methods, classes, descriptors, dispatch, statics } }

def nextBounds (b : Bounds) (length : UInt32) : Bounds :=
  { start := b.stop, stop := b.stop + length.toNat }

def read (bytes : Array UInt8) : Except ImageError LoadedImage := do
  let (header, _) ← readHeader bytes 0
  let methodBounds := nextBounds { start := 0, stop := ImageHeader.size } header.sections.methods
  let classBounds := nextBounds methodBounds header.sections.classes
  let descriptorBounds := nextBounds classBounds header.sections.descriptors
  let dispatchBounds := nextBounds descriptorBounds header.sections.dispatch
  let staticBounds := nextBounds dispatchBounds header.sections.statics
  let stop := staticBounds.stop
  if bytes.size < stop then throw (.truncated bytes.size (stop - bytes.size))
  if stop < bytes.size then throw (.trailingBytes (bytes.size - stop))
  let methods ← readMethods bytes methodBounds
  let classes ← readClasses bytes classBounds
  let descriptors ← readDescriptors bytes descriptorBounds
  let dispatch ← readDispatches bytes dispatchBounds
  let statics ← readStatics bytes staticBounds
  return { header, methods, classes, descriptors, dispatch, statics }

def methodAt? (i : LoadedImage) (offset : UInt32) : Option Nat :=
  i.methods.findIdx? (·.codeOffset == offset)

end LoadedImage

end DeviceCode
