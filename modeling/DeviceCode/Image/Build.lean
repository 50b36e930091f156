import DeviceCode.Image
import DeviceCode.Link

/-!
# The image of a linked build

`Image.ofLinked` collects the records of an image. All numbers of a table must fit into the words
that the format has for them.
-/

namespace DeviceCode

namespace Image

def checkWord (what : String) (n : Nat) : Except CompileError Unit :=
  if n < 65536 then .ok () else .error (.limitExceeded what 65535)

def checkDouble (what : String) (n : Nat) : Except CompileError Unit :=
  if n < 4294967296 then .ok () else .error (.limitExceeded what 4294967295)

def classId (layout : LayoutTable) (key : String) : Except CompileError Nat :=
  match layout.classId? key with
  | some id => .ok id
  | none => .error (.unresolvableReference "class layout" key)

/-- The class of an embedded structure as a signed word, -1 for none. -/
def classRef (layout : LayoutTable) : Option String → Except CompileError Int16
  | none => .ok (-1)
  | some key => do
    let id ← classId layout key
    if id < 32768 then return Int16.ofNat id
    else throw (.limitExceeded "class table" 32767)

def slotRecords (layout : LayoutTable) (what : String) (area : SlotList) :
    Except CompileError (List SlotRecord) := do
  checkWord what area.slots.size
  area.slots.toList.mapM fun slot => do
    return { tag := slot.tag.id, classRef := ← classRef layout slot.valueClass }

def methodRecord (layout : LayoutTable) (m : CompiledMethod) :
    Except CompileError MethodRecord := do
  let retClass ← classRef layout (m.ret.bind (·.valueClass))
  let args ← slotRecords layout "argument count" m.args
  let locals ← slotRecords layout "local count" m.locals
  let code := m.code.toArray
  checkDouble "method code size" code.size
  return { retTag := Storage.resultTag m.ret, retClass, args, locals, maxStack := m.maxStack, code }

def methodRecords (layout : LayoutTable) (methods : List CompiledMethod) :
    Except CompileError (List MethodRecord) := do
  checkWord "method table" methods.length
  methods.mapM (methodRecord layout)

def classRecord (layout : LayoutTable) (c : ClassLayout) : Except CompileError ClassRecord := do
  let fields ← c.fields.toList.mapM fun f => do
    return { tag := f.tag.id, offset := f.offset, classRef := ← classRef layout f.valueClass }
  return { size := c.size, fields }

def classRecords (layout : LayoutTable) : Except CompileError (List ClassRecord) := do
  checkWord "class table" layout.classes.size
  layout.classes.toList.forM fun c => checkWord "class field count" c.fields.size
  layout.classes.toList.mapM (classRecord layout)

def dispatchPair (layout : LayoutTable) (implementor : String × Nat) :
    Except CompileError DispatchPair := do
  let id ← classId layout implementor.1
  checkWord "class table" id
  checkWord "method table" implementor.2
  return { classId := id.toUInt16, method := implementor.2.toUInt16 }

def dispatchRecord (layout : LayoutTable) (s : VirtualSlot) :
    Except CompileError DispatchRecord := do
  checkWord "slot implementors" s.implementors.length
  checkWord "slot parameters" s.params
  let implementors ← s.implementors.mapM (dispatchPair layout)
  return { params := s.params.toUInt16, implementors }

def dispatchRecords (layout : LayoutTable) (slots : List VirtualSlot) :
    Except CompileError (List DispatchRecord) := do
  checkWord "dispatch table" slots.length
  slots.mapM (dispatchRecord layout)

def staticRecord (f : StaticField) : StaticRecord where
  tag := f.tag.id
  offset := f.offset
  descriptor := f.descriptor.getD Opcode.placeholder
  host := f.host

def staticsRecord (layout : LayoutTable) : Except CompileError StaticsRecord := do
  checkDouble "static region" layout.staticSize
  checkWord "static field count" layout.statics.size
  return { size := layout.staticSize.toUInt32, entries := layout.statics.toList.map staticRecord }

def receiverClass (p : Program) (layout : LayoutTable) (m : CompiledMethod) : Int32 :=
  match p.methodDef? m.method with
  | none => -1
  | some d =>
    if d.isStatic then -1
    else match layout.classId? (p.fullName (.named d.declaring m.typeArgs)) with
      | some id => Int32.ofNat id
      | none => -1

/-- The image of a linked build that starts at the method with index `entry`. -/
def ofLinked (c : BuildContext) (r : Registry) (l : Linked) (entry : Nat) :
    Except CompileError Image := do
  let methods ← methodRecords l.layout r.methods.toList
  let classes ← classRecords l.layout
  checkWord "descriptor table" l.descriptors.size
  let dispatch ← dispatchRecords l.layout r.slots.toList
  let statics ← staticsRecord l.layout
  match r.methods[entry]? with
  | none => throw (.unresolvableReference "entry method" ("#" ++ toString entry))
  | some m =>
    let image : Image := {
      scanInterval := c.options.scanInterval
      entry
      entryClass := receiverClass c.program l.layout m
      methods, classes
      descriptors := l.descriptors.toList.map Descriptor.encode
      dispatch, statics }
    checkDouble "image size" (ImageHeader.size + image.sections.flatten.length)
    return image

end Image

end DeviceCode
