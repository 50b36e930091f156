import DeviceCode.CUnit.Printer
import DeviceCode.HostMap
import DeviceCode.Image.Build
import DeviceCode.Listing

/-!
# Builds

`BuildContext.build` compiles a method and all that it reaches into an image for the device, and
into a C unit for the methods that can be written in C.
-/

namespace DeviceCode

/-- A method of a build. -/
structure MethodSummary where
  name : String
  codeOffset : UInt32
  codeLength : Nat
  maxStack : UInt16
  requiresNative : Bool
  /-- Why the method is not in the C unit. -/
  obstacle : Option CObstacle
  deriving DecidableEq, Inhabited

structure BuildStats where
  methods : Nat
  /-- The methods that can be written in C. -/
  inC : Nat
  classes : Nat
  descriptors : Nat
  virtualSlots : Nat
  linkIterations : Nat
  fixupsApplied : Nat
  imageBytes : Nat
  deriving DecidableEq, Inhabited

/-- What a build produces. -/
structure Build where
  image : Image
  /-- The written form of the image. -/
  bytes : List UInt8
  /-- The C unit, if it was asked for. -/
  cUnit : Option CUnit
  hostMap : HostMap
  warnings : List Diagnostic
  /-- The methods by index; the entry is the first. -/
  methods : List MethodSummary
  listing : Listing
  layout : LayoutTable
  descriptors : DescriptorTable
  stats : BuildStats

namespace Build

def methodIndex? (b : Build) (name : String) : Option Nat := b.methods.findIdx? (·.name == name)

def summary (m : CompiledMethod) (codeOffset : UInt32) : MethodSummary where
  name := m.name
  codeOffset := codeOffset
  codeLength := m.codeLength
  maxStack := m.maxStack
  requiresNative := m.requiresNative
  obstacle := m.cStatus.reason?

def obstacleWarning (m : CompiledMethod) : Option Diagnostic :=
  m.cStatus.reason?.map fun reason => {
    severity := .warning
    message := "method is not transpilable: " ++ reason.message
    method := some m.name
    help := some "the method runs as bytecode only"
    code := some "D102" }

def ofLinked (c : BuildContext) (r : Registry) (linked : Linked) (entry : Nat) :
    Except CompileError Build := do
  let image ← Image.ofLinked c r linked entry
  let cUnit ←
    if c.options.emitC then some <$> CUnit.ofMethods c r.methods linked.layout else pure none
  let bytes := image.encode
  let codeOffsets := image.codeOffsets.map Nat.toUInt32
  let methods := (r.methods.toList.zip codeOffsets).map fun (m, offset) => summary m offset
  return {
    image, bytes, cUnit
    hostMap := HostMap.ofLayout linked.layout
    warnings := r.methods.toList.filterMap obstacleWarning ++ r.warnings.toList
    methods
    listing := Listing.ofMethods r.methods.toList codeOffsets
    layout := linked.layout
    descriptors := linked.descriptors
    stats := {
      methods := methods.length
      inC := methods.countP (·.obstacle.isNone)
      classes := linked.layout.classes.size
      descriptors := linked.descriptors.size
      virtualSlots := r.slots.size
      linkIterations := linked.iterations
      fixupsApplied := linked.fixupsApplied
      imageBytes := bytes.length } }

end Build

namespace BuildContext

/-- Compiles the entry method and all that it reaches, and links the result. -/
def compileAndLink (c : BuildContext) (entry : MethodRef) : RegistryM (Nat × Linked) := do
  let index ← Registry.compileEntry c entry
  let linked ← Registry.link c
  return (index, linked)

def build (c : BuildContext) (entry : MethodRef) : Except CompileError Build :=
  match (c.compileAndLink entry).run {} with
  | .error e _ => .error e
  | .ok (index, linked) r => Build.ofLinked c r linked index

end BuildContext

end DeviceCode
