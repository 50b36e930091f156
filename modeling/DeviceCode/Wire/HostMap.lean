import DeviceCode.HostMap
import DeviceCode.Wire

/-!
# Host maps in the wire format
-/

namespace DeviceCode

open Wire

namespace HostField

def put (f : HostField) : List UInt8 :=
  putText f.name ++ putText f.key ++ putNat f.offset.toNat ++ putVariant Tag.all f.tag ++
    putNat f.descriptor.toNat

def get : WireM HostField := do
  let name ← text
  let key ← text
  let offset ← word16
  let tag ← variant Tag.all
  let descriptor ← word16
  return { name, key, offset, tag, descriptor }

end HostField

namespace HostMap

def toBytes (m : HostMap) : List UInt8 := putList HostField.put m.fields

def ofBytes (bytes : List UInt8) : Except WireError HostMap :=
  (fun (fields, _) => { fields }) <$> list HostField.get bytes

end HostMap

end DeviceCode
