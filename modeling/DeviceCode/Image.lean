import DeviceCode.Placement
import DeviceCode.Word

/-!
# Images

The image is what the device loads: a header of 32 bytes, then the sections of methods, classes,
descriptors, dispatch and static fields. All integers are little-endian, every table starts with its
count, and every 32-bit offset is a position in the whole image. `Image.encode` is its written
form.
-/

namespace DeviceCode

/-- An argument or a local variable: its tag, and the class that it embeds or -1. -/
structure SlotRecord where
  tag : UInt8
  classRef : Int16
  deriving DecidableEq, Inhabited

structure MethodRecord where
  retTag : UInt8
  retClass : Int16
  args : List SlotRecord
  locals : List SlotRecord
  maxStack : UInt16
  code : Array UInt8
  deriving DecidableEq, Inhabited

structure FieldRecord where
  tag : UInt8
  offset : UInt16
  /-- The class that the field embeds, or -1. -/
  classRef : Int16
  deriving DecidableEq, Inhabited

structure ClassRecord where
  size : UInt16
  fields : List FieldRecord
  deriving DecidableEq, Inhabited

/-- A class of a virtual slot and the method that it runs. -/
structure DispatchPair where
  classId : UInt16
  method : UInt16
  deriving DecidableEq, Inhabited

structure DispatchRecord where
  params : UInt16
  implementors : List DispatchPair
  deriving DecidableEq, Inhabited

structure StaticRecord where
  tag : UInt8
  offset : UInt16
  descriptor : UInt16
  host : Bool
  deriving DecidableEq, Inhabited

structure StaticsRecord where
  /-- The bytes of the static region. -/
  size : UInt32
  entries : List StaticRecord
  deriving DecidableEq, Inhabited

/-- What an image holds. -/
structure Image where
  scanInterval : UInt32
  /-- The method where the program starts. -/
  entry : Nat
  /-- The class of the object that the entry method runs on, or -1. -/
  entryClass : Int32
  methods : List MethodRecord
  classes : List ClassRecord
  /-- The encoded descriptors. -/
  descriptors : List (List UInt8)
  dispatch : List DispatchRecord
  statics : StaticsRecord
  deriving DecidableEq, Inhabited

/-- The byte lengths of the sections. -/
structure SectionLengths where
  methods : UInt32
  classes : UInt32
  descriptors : UInt32
  dispatch : UInt32
  statics : UInt32
  deriving DecidableEq, Inhabited

def SectionLengths.toList (l : SectionLengths) : List UInt32 :=
  [l.methods, l.classes, l.descriptors, l.dispatch, l.statics]

structure ImageHeader where
  scanInterval : UInt32
  /-- Where the code of the entry method starts. -/
  entryOffset : UInt32
  sections : SectionLengths
  entryClass : Int32
  deriving DecidableEq, Inhabited

namespace ImageHeader

def size : Nat := 32

def encode (h : ImageHeader) : List UInt8 :=
  (h.scanInterval :: h.entryOffset :: h.sections.toList ++ [h.entryClass.toUInt32]).flatMap
    Word.bytes32

end ImageHeader

namespace Image

def word (n : Nat) : List UInt8 := Word.bytes16 n.toUInt16

def position (n : Nat) : List UInt8 := Word.bytes32 n.toUInt32

end Image

/-! ## Records -/

namespace SlotRecord

def encode (s : SlotRecord) : List UInt8 := s.tag :: Word.bytes16 s.classRef.toUInt16

def encodeAll (slots : List SlotRecord) : List UInt8 :=
  Image.word slots.length ++ slots.flatMap encode

end SlotRecord

namespace MethodRecord

def metadata (m : MethodRecord) : List UInt8 :=
  m.retTag :: Word.bytes16 m.retClass.toUInt16 ++ SlotRecord.encodeAll m.args ++
    SlotRecord.encodeAll m.locals ++ Word.bytes16 m.maxStack ++ Image.position m.code.size

def metadataSize (m : MethodRecord) : Nat := 13 + 3 * m.args.length + 3 * m.locals.length

def size (m : MethodRecord) : Nat := m.metadataSize + m.code.size

def encode (m : MethodRecord) : List UInt8 := m.metadata ++ m.code.toList

end MethodRecord

namespace FieldRecord

def encode (f : FieldRecord) : List UInt8 :=
  f.tag :: Word.bytes16 f.offset ++ Word.bytes16 f.classRef.toUInt16

end FieldRecord

namespace DispatchRecord

def encode (d : DispatchRecord) : List UInt8 :=
  Image.word d.implementors.length ++ Word.bytes16 d.params ++
    d.implementors.flatMap fun i => Word.bytes16 i.classId ++ Word.bytes16 i.method

end DispatchRecord

namespace StaticRecord

def hostFlag : UInt8 := 0x01

def encode (s : StaticRecord) : List UInt8 :=
  s.tag :: Word.bytes16 s.offset ++ Word.bytes16 s.descriptor ++ [if s.host then hostFlag else 0]

end StaticRecord

namespace StaticsRecord

def encode (s : StaticsRecord) : List UInt8 :=
  Word.bytes32 s.size ++ Image.word s.entries.length ++ s.entries.flatMap StaticRecord.encode

end StaticsRecord

/-! ## Sections -/

namespace Image

def methodStarts (methods : List MethodRecord) : List Nat :=
  placements (ImageHeader.size + 2 + 8 * methods.length) (methods.map (·.size))

/-- The methods: where metadata and code of each one start, then all of them. -/
def methodSection (methods : List MethodRecord) : List UInt8 :=
  word methods.length ++
    (methods.zip (methodStarts methods)).flatMap
      (fun (m, start) => position start ++ position (start + m.metadataSize)) ++
    methods.flatMap MethodRecord.encode

def classSection (start : Nat) (classes : List ClassRecord) : List UInt8 :=
  let starts := placements (start + 2 + 8 * classes.length) (classes.map (5 * ·.fields.length))
  word classes.length ++
    (classes.zip starts).flatMap
      (fun (c, at_) => Word.bytes16 c.size ++ word c.fields.length ++ position at_) ++
    classes.flatMap fun c => c.fields.flatMap FieldRecord.encode

def tableSection (start : Nat) (items : List (List UInt8)) : List UInt8 :=
  word items.length ++
    (placements (start + 2 + 4 * items.length) (items.map List.length)).flatMap position ++
    items.flatten

def codeOffsets (i : Image) : List Nat :=
  (i.methods.zip (methodStarts i.methods)).map fun (m, start) => start + m.metadataSize

/-- The sections, one after the other. -/
structure Sections where
  methods : List UInt8
  classes : List UInt8
  descriptors : List UInt8
  dispatch : List UInt8
  statics : List UInt8

def sections (i : Image) : Sections :=
  let methods := methodSection i.methods
  let start := ImageHeader.size + methods.length
  let classes := classSection start i.classes
  let start := start + classes.length
  let descriptors := tableSection start i.descriptors
  let start := start + descriptors.length
  let dispatch := tableSection start (i.dispatch.map DispatchRecord.encode)
  { methods, classes, descriptors, dispatch, statics := i.statics.encode }

namespace Sections

def lengths (s : Sections) : SectionLengths where
  methods := s.methods.length.toUInt32
  classes := s.classes.length.toUInt32
  descriptors := s.descriptors.length.toUInt32
  dispatch := s.dispatch.length.toUInt32
  statics := s.statics.length.toUInt32

def flatten (s : Sections) : List UInt8 :=
  s.methods ++ s.classes ++ s.descriptors ++ s.dispatch ++ s.statics

end Sections

def header (i : Image) : ImageHeader where
  scanInterval := i.scanInterval
  entryOffset := (i.codeOffsets[i.entry]?.getD 0).toUInt32
  sections := i.sections.lengths
  entryClass := i.entryClass

def encode (i : Image) : List UInt8 := i.header.encode ++ i.sections.flatten

end Image

end DeviceCode
