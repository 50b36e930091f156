import DeviceCode.Registry

/-!
# Listings

The code of a build as text, and the address map, which turns an address of the image back into an
instruction of a method and a source line.
-/

namespace DeviceCode

/-- The instruction that starts at an address. -/
structure AddressEntry where
  address : UInt32
  method : Nat
  instruction : Nat
  line : Option UInt32
  deriving DecidableEq, Inhabited

structure Listing where
  /-- One entry for each instruction, by address. -/
  entries : List AddressEntry
  text : String
  deriving DecidableEq, Inhabited

namespace AddressEntry

def ofMethod (index : Nat) (m : CompiledMethod) (base : UInt32) : List AddressEntry :=
  m.chunks.toList.zipIdx.map fun (chunk, i) =>
    { address := base + chunk.offset.toUInt32, method := index, instruction := i
      line := m.lines[i]?.join }

def row (e : AddressEntry) : String :=
  let line := match e.line with
    | some l => toString l.toNat
    | none => "-"
  Text.hex 8 e.address.toNat ++ " " ++ toString e.method ++ " " ++
    Text.hex 4 e.instruction ++ " " ++ line ++ "\n"

end AddressEntry

namespace Listing

/-- One instruction: its address, its position, its name and the bytes of its operands. -/
def row (e : AddressEntry) (bytes : List UInt8) : String :=
  let mnemonic := match bytes with
    | b :: _ => Opcode.nameOfByte b
    | [] => ""
  let operands := String.join (bytes.tail.map fun b => " " ++ Text.hex 2 b.toNat)
  let line := match e.line with
    | some l => "  ; line " ++ toString l.toNat
    | none => ""
  Text.hex 8 e.address.toNat ++ "  " ++ instructionLabel e.instruction ++ "  " ++
    Text.padRight 16 mnemonic ++ operands ++ line ++ "\n"

def methodText (index : Nat) (m : CompiledMethod) (entries : List AddressEntry) : String :=
  "=== Method " ++ toString index ++ ": " ++ m.name ++ " ===\n" ++
    "    args " ++ toString m.args.slots.size ++ "  locals " ++ toString m.locals.slots.size ++
    "  max_stack " ++ toString m.maxStack.toNat ++ "  code " ++ toString m.codeLength ++
    " bytes\n" ++
    String.join ((entries.zip m.chunks.toList).map fun (e, chunk) => row e chunk.bytes) ++ "\n"

def ofMethods (methods : List CompiledMethod) (codeOffsets : List UInt32) : Listing :=
  let items := (methods.zip codeOffsets).zipIdx.map fun ((m, base), index) =>
    (index, m, AddressEntry.ofMethod index m base)
  { entries := (items.flatMap fun (_, _, entries) => entries).mergeSort fun a b =>
      a.address ≤ b.address
    text := String.join (items.map fun (index, m, entries) => methodText index m entries) }

/-- The instruction that contains the address: the last one that starts there or before. -/
def lookup (l : Listing) (address : UInt32) : Option AddressEntry :=
  (l.entries.takeWhile (·.address ≤ address)).getLast?

def addressMap (l : Listing) : String := String.join (l.entries.map AddressEntry.row)

end Listing

end DeviceCode
