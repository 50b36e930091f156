import DeviceCode.Layout
import DeviceCode.Opcode

/-!
# Host maps

The host reads and writes the fields that it shares with the device directly in the static region.
The host map tells where they are.
-/

namespace DeviceCode

structure HostField where
  name : String
  /-- The name with the declaring type. -/
  key : String
  /-- Where the tag byte stands in the static region. -/
  offset : UInt16
  tag : Tag
  descriptor : UInt16
  deriving DecidableEq, Inhabited

structure HostMap where
  fields : List HostField
  deriving DecidableEq, Inhabited

namespace HostMap

def ofLayout (layout : LayoutTable) : HostMap where
  fields := (layout.statics.toList.filter (·.host)).map fun f =>
    { name := f.name, key := f.key, offset := f.offset, tag := f.tag
      descriptor := f.descriptor.getD Opcode.placeholder }

def get? (m : HostMap) (name : String) : Option HostField :=
  m.fields.find? fun f => f.name == name || f.key == name

end HostMap

end DeviceCode
