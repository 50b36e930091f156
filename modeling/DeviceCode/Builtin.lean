import DeviceCode.Program

/-!
# Builtins

The methods of the device's own library. A builtin is known by its position in the table, which the
device shares, so entries are only ever appended. A call reaches a builtin when its signature
`Namespace.Type.Method(Param, ...)`, without type arguments, is in the table.
-/

namespace DeviceCode

/-- The C function or macro that does the work of a builtin, and the tag of its result. -/
structure CSymbol where
  symbol : String
  ret : Tag
  deriving DecidableEq, Inhabited

structure Builtin where
  signature : String
  native : Option CSymbol
  deriving DecidableEq, Inhabited

namespace Builtin

abbrev plain (signature : String) : Builtin := { signature, native := none }

abbrev withSymbol (signature symbol : String) (ret : Tag) : Builtin :=
  { signature, native := some { symbol, ret } }

def standard : List Builtin := [
  .plain "System.Object..ctor()",
  .withSymbol "System.Math.Abs(Double)" "fabsf" .f32,
  .withSymbol "System.Math.Abs(Int16)" "abs" .i16,
  .withSymbol "System.Math.Abs(Int32)" "abs" .i32,
  .withSymbol "System.Math.Abs(Int64)" "abs" .i32,
  .withSymbol "System.Math.Abs(SByte)" "abs" .i8,
  .withSymbol "System.Math.Abs(Single)" "fabsf" .f32,
  .withSymbol "System.Math.Acos(Double)" "acosf" .f32,
  .withSymbol "System.Math.Acosh(Double)" "acoshf" .f32,
  .withSymbol "System.Math.Asin(Double)" "asinf" .f32,
  .withSymbol "System.Math.Asinh(Double)" "asinhf" .f32,
  .withSymbol "System.Math.Atan(Double)" "atanf" .f32,
  .withSymbol "System.Math.Atan2(Double, Double)" "atan2f" .f32,
  .withSymbol "System.Math.Atanh(Double)" "atanhf" .f32,
  .withSymbol "System.Math.Ceiling(Double)" "ceilf" .f32,
  .withSymbol "System.Math.Clamp(Double, Double, Double)" "DIVER_CLAMP" .f32,
  .withSymbol "System.Math.Clamp(Int16, Int16, Int16)" "DIVER_CLAMP" .i16,
  .withSymbol "System.Math.Clamp(Int32, Int32, Int32)" "DIVER_CLAMP" .i32,
  .withSymbol "System.Math.Clamp(Int64, Int64, Int64)" "DIVER_CLAMP" .i32,
  .withSymbol "System.Math.Clamp(SByte, SByte, SByte)" "DIVER_CLAMP" .i8,
  .withSymbol "System.Math.Clamp(Single, Single, Single)" "DIVER_CLAMP" .f32,
  .withSymbol "System.Math.Cos(Double)" "cosf" .f32,
  .withSymbol "System.Math.Cosh(Double)" "coshf" .f32,
  .withSymbol "System.Math.Exp(Double)" "expf" .f32,
  .withSymbol "System.Math.Floor(Double)" "floorf" .f32,
  .withSymbol "System.Math.Log(Double)" "logf" .f32,
  .withSymbol "System.Math.Log(Double, Double)" "DIVER_LOGB" .f32,
  .withSymbol "System.Math.Log10(Double)" "log10f" .f32,
  .withSymbol "System.Math.Log2(Double)" "log2f" .f32,
  .withSymbol "System.Math.Max(Double, Double)" "DIVER_MAX" .f32,
  .withSymbol "System.Math.Max(Int16, Int16)" "DIVER_MAX" .i16,
  .withSymbol "System.Math.Max(Int32, Int32)" "DIVER_MAX" .i32,
  .withSymbol "System.Math.Max(Int64, Int64)" "DIVER_MAX" .i32,
  .withSymbol "System.Math.Max(SByte, SByte)" "DIVER_MAX" .i8,
  .withSymbol "System.Math.Max(Single, Single)" "DIVER_MAX" .f32,
  .withSymbol "System.Math.Min(Double, Double)" "DIVER_MIN" .f32,
  .withSymbol "System.Math.Min(Int16, Int16)" "DIVER_MIN" .i16,
  .withSymbol "System.Math.Min(Int32, Int32)" "DIVER_MIN" .i32,
  .withSymbol "System.Math.Min(Int64, Int64)" "DIVER_MIN" .i32,
  .withSymbol "System.Math.Min(SByte, SByte)" "DIVER_MIN" .i8,
  .withSymbol "System.Math.Min(Single, Single)" "DIVER_MIN" .f32,
  .withSymbol "System.Math.Pow(Double, Double)" "powf" .f32,
  .withSymbol "System.Math.Round(Double)" "roundf" .f32,
  .withSymbol "System.Math.Sign(Double)" "DIVER_SIGN" .i32,
  .withSymbol "System.Math.Sign(Int16)" "DIVER_SIGN" .i32,
  .withSymbol "System.Math.Sign(Int32)" "DIVER_SIGN" .i32,
  .withSymbol "System.Math.Sign(Int64)" "DIVER_SIGN" .i32,
  .withSymbol "System.Math.Sign(SByte)" "DIVER_SIGN" .i32,
  .withSymbol "System.Math.Sign(Single)" "DIVER_SIGN" .i32,
  .withSymbol "System.Math.Sin(Double)" "sinf" .f32,
  .withSymbol "System.Math.Sinh(Double)" "sinhf" .f32,
  .withSymbol "System.Math.Sqrt(Double)" "sqrtf" .f32,
  .withSymbol "System.Math.Tan(Double)" "tanf" .f32,
  .withSymbol "System.Math.Tanh(Double)" "tanhf" .f32,
  .plain "System.String.Format(String, Object)",
  .plain "System.String.Format(String, Object, Object)",
  .plain "System.String.Format(String, Object, Object, Object)",
  .plain "System.String.Format(String, Object[])",
  .plain "System.String.Concat(String, String)",
  .plain "System.String.Concat(String, String, String)",
  .plain "System.String.Concat(String, String, String, String)",
  .plain "System.String.Substring(Int32, Int32)",
  .plain "System.String.get_Length()",
  .plain "System.Boolean.ToString()",
  .plain "System.Byte.ToString()",
  .plain "System.Char.ToString()",
  .plain "System.Int16.ToString()",
  .plain "System.Int32.ToString()",
  .plain "System.Single.ToString()",
  .plain "System.UInt16.ToString()",
  .plain "System.UInt32.ToString()",
  .plain "System.Console.WriteLine(String)",
  .plain "System.BitConverter.GetBytes(Boolean)",
  .plain "System.BitConverter.GetBytes(Char)",
  .plain "System.BitConverter.GetBytes(Int16)",
  .plain "System.BitConverter.GetBytes(Int32)",
  .plain "System.BitConverter.GetBytes(Single)",
  .plain "System.BitConverter.GetBytes(UInt16)",
  .plain "System.BitConverter.GetBytes(UInt32)",
  .plain "System.BitConverter.ToBoolean(Byte[], Int32)",
  .plain "System.BitConverter.ToChar(Byte[], Int32)",
  .plain "System.BitConverter.ToInt16(Byte[], Int32)",
  .plain "System.BitConverter.ToInt32(Byte[], Int32)",
  .plain "System.BitConverter.ToSingle(Byte[], Int32)",
  .plain "System.BitConverter.ToUInt16(Byte[], Int32)",
  .plain "System.BitConverter.ToUInt32(Byte[], Int32)",
  .plain "Diver.Host.ReadEvent(Int32, Int32)",
  .plain "Diver.Host.ReadSnapshot()",
  .plain "Diver.Host.ReadStream(Int32)",
  .plain "Diver.Host.WriteEvent(Byte[], Int32, Int32)",
  .plain "Diver.Host.WriteSnapshot(Byte[])",
  .plain "Diver.Host.WriteStream(Byte[], Int32)",
  .plain "Diver.Host.GetMicrosFromStart()",
  .plain "Diver.Host.GetMillisFromStart()",
  .plain "Diver.Host.GetSecondsFromStart()"]

end Builtin

/-- The builtins by id. -/
structure BuiltinTable where
  entries : Array Builtin
  deriving DecidableEq, Inhabited

namespace BuiltinTable

def standard : BuiltinTable := { entries := Builtin.standard.toArray }

def lookup? (t : BuiltinTable) (signature : String) : Option UInt16 :=
  (t.entries.findIdx? (·.signature == signature)).map Nat.toUInt16

def get? (t : BuiltinTable) (id : UInt16) : Option Builtin := t.entries[id.toNat]?

def name? (t : BuiltinTable) (id : UInt16) : Option String := (t.get? id).map (·.signature)

def symbol? (t : BuiltinTable) (id : UInt16) : Option CSymbol := (t.get? id).bind (·.native)

def bucket (signature : String) : Nat :=
  signature.toList.foldl (fun n c => (31 * n + c.toNat) % 512) 0

/-- The standard table with what was added to it, also by bucket, so that long lists stay quick. -/
structure Extension where
  table : BuiltinTable := standard
  added : Array (List String) := Array.replicate 512 []

def Extension.add (e : Extension) (signature : String) : Extension :=
  if (standard.lookup? signature).isSome || (e.added.getD (bucket signature) []).contains signature then e
  else
    { table := { entries := e.table.entries.push (.plain signature) }
      added := e.added.modify (bucket signature) (signature :: ·) }

def withExtra (extra : List String) : BuiltinTable := (extra.foldl .add ({} : Extension)).table

end BuiltinTable

def MethodRef.signature (p : Program) (m : MethodRef) : String :=
  let owner := match m.owner with
    | .named id _ =>
      match p.typeDef? id with
      | some d => d.name
      | none => p.fullName m.owner
    | t => p.fullName t
  owner ++ "." ++ m.name ++ "(" ++ Text.join ", " (m.params.map p.shortName) ++ ")"

end DeviceCode
