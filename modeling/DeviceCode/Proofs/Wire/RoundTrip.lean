import DeviceCode.Proofs.Wire
import DeviceCode.Wire.HostMap
import DeviceCode.Wire.Program

/-!
# Programs and host maps are read back

Every part of a program is a `Codec`: its reader gives back what its writer wrote. Types can hold types;
each level of nesting takes a byte, so that the number of bytes bounds the nesting
(`TypeRef.codec`). Main statement: `Wire.forms_read_back`, for programs and host maps.
-/

namespace DeviceCode

open List

variable {depth : Nat} {bytes : List UInt8}

open Wire

theorem Wire.Fits.tail {b : UInt8} (h : Fits (depth + 1) (b :: bytes)) : Fits depth bytes := by
  obtain ⟨hdepth, hlength⟩ := h
  rw [length_cons] at hdepth hlength
  exact ⟨by omega, by omega⟩

theorem Wire.length_append_pos (h : 0 < bytes.length) (bytes' : List UInt8) :
    0 < (bytes ++ bytes').length := by
  rw [length_append]
  omega

theorem Primitive.codec (depth : Nat) : Codec depth (putVariant Primitive.all) (variant Primitive.all) :=
  codec_variant _ depth (by intro p; cases p <;> decide) (by decide)

/-! ## Types -/

namespace TypeRef

theorem putAll_eq_flatMap (ts : List TypeRef) : putAll ts = ts.flatMap put := by
  induction ts with
  | nil => rfl
  | cons t ts ih => rw [putAll, ih, flatMap_cons]

theorem length_put_pos (t : TypeRef) : 0 < (put t).length := by
  cases t <;> simp only [put, append_assoc]
  all_goals first | exact length_putNat_pos _ | exact length_append_pos (length_putNat_pos _) _

/-- **A type is read back**, if it is nested no deeper than the reader goes. -/
theorem codec : ∀ depth : Nat, Codec depth put (get depth)
  | 0 => ⟨length_put_pos, fun t h => absurd (length_put_pos t) (Nat.not_lt.2 h.depth)⟩
  | d + 1 => by
    refine ⟨length_put_pos, fun t h => ?_⟩
    cases t with
    | void => exact reads_bare 0 rfl
    | primitive p => exact reads_choice 1 (((Primitive.codec d).reads p (Fits.tail h)).last _)
    | string => exact reads_bare 2 rfl
    | object => exact reads_bare 3 rfl
    | array t => exact reads_choice 4 (((codec d).reads t (Fits.tail h)).last _)
    | named id args =>
      rw [put, append_assoc, putAll_eq_flatMap] at h ⊢
      refine reads_choice 5 ((reads_word32 id.val).bind ?_)
      obtain ⟨-, hargs⟩ : Fits d (putNat id.index) ∧ Fits d (putList put args) :=
        fits_append (Fits.tail h)
      exact ((codec d).list.reads args hargs).last _
    | param i => exact reads_choice 6 ((reads_word16 i).last _)
    | byRef t => exact reads_choice 7 (((codec d).reads t (Fits.tail h)).last _)
    | pointer t => exact reads_choice 8 (((codec d).reads t (Fits.tail h)).last _)

end TypeRef

/-! ## References -/

theorem FieldRef.codec (depth : Nat) : Codec depth FieldRef.put (FieldRef.get depth) where
  length_pos _ := length_append_pos (TypeRef.length_put_pos _) _
  reads f h := (TypeRef.codec depth).bind h fun h => ((codec_text depth).reads f.name h).last _

theorem MethodRef.codec (depth : Nat) : Codec depth MethodRef.put (MethodRef.get depth) where
  length_pos m := by
    simp only [put, append_assoc]
    exact length_append_pos (TypeRef.length_put_pos _) _
  reads m h := by
    simp only [put, append_assoc] at h ⊢
    have htypes := TypeRef.codec depth
    exact htypes.bind h fun h => (codec_text depth).bind h fun h => htypes.list.bind h fun h =>
      htypes.bind h fun _ => (reads_bool _).last _

theorem ElementKind.codec (depth : Nat) : Codec depth ElementKind.put (ElementKind.get depth) where
  length_pos k := by
    cases k with
    | primitive p => exact length_append_pos (length_putNat_pos _) _
    | reference => exact length_putNat_pos _
    | any t => exact length_append_pos (length_putNat_pos _) _
  reads k h := by
    cases k with
    | primitive p =>
      exact reads_choice 0 (((Primitive.codec depth).reads p (fits_append h).2).last _)
    | reference => exact reads_bare 1 rfl
    | any t => exact reads_choice 2 (((TypeRef.codec depth).reads t (fits_append h).2).last _)

/-! ## Instructions -/

namespace Op

theorem number_lt (op : Op) : op.number < 4294967296 := by
  unfold number
  split <;> decide

theorem reads_operands {op : Op} (h : Fits depth op.putOperands) :
    Reads (getOperands depth op.number) op.putOperands op := by
  have htype := TypeRef.codec depth
  have hmethod := MethodRef.codec depth
  have hfield := FieldRef.codec depth
  have hkind := ElementKind.codec depth
  have hprimitive := Primitive.codec depth
  cases op with
  | nop | null | dup | pop | ret | neg | not | convUnsignedToFloat | arrayLength | throw | endFinally =>
    exact .pure _
  | slot area access n => cases area <;> cases access <;> exact (reads_word16 n).last _
  | const c =>
    cases c with
    | i4 v => exact (reads_int32 v).last _
    | i8 v => exact (reads_int64 v).last _
    | r4 bits => exact (reads_pattern32 bits).last _
    | r8 bits => exact (reads_pattern64 bits).last _
  | text s => exact ((codec_text depth).reads s h).last _
  | jump t | leave t => exact (reads_word64 t).last _
  | jumpIf sense t => cases sense <;> exact (reads_word64 t).last _
  | jumpCmp cmp isUnsigned t =>
    rw [putOperands, append_assoc] at h ⊢
    have hcmp := (codec_variant Comparison.all depth (by intro c; cases c <;> decide)
      (by decide)).reads cmp (fits_append h).1
    exact hcmp.bind ((reads_bool isUnsigned).bind ((reads_word64 t).last _))
  | switch targets => exact ((codec_word64 depth).list.reads targets h).last _
  | loadThrough pointee | storeThrough pointee => cases pointee with
    | none => exact .pure _
    | some p => exact (hprimitive.reads p h).last _
  | binary b =>
    exact ((codec_variant _ depth (by intro b; cases b <;> decide) (by decide)).reads b h).last _
  | conv p => exact (hprimitive.reads p h).last _
  | compare relation isUnsigned =>
    have hrelation := (codec_variant Relation.all depth (by intro r; cases r <;> decide)
      (by decide)).reads relation (fits_append h).1
    exact hrelation.bind ((reads_bool isUnsigned).last _)
  | initObject t | box t | unbox t | castClass t | newArray t | elementAddress t =>
    exact (htype.reads t h).last _
  | newObject m | methodAddress m => exact (hmethod.reads m h).last _
  | call isVirtual m => cases isVirtual <;> exact (hmethod.reads m h).last _
  | field isStatic access f => cases isStatic <;> cases access <;> exact (hfield.reads f h).last _
  | loadElement kind | storeElement kind => exact (hkind.reads kind h).last _
  | callIndirect params returns => exact (reads_word16 params).bind ((reads_bool returns).last _)

theorem codec (depth : Nat) : Codec depth put (get depth) where
  length_pos op := length_append_pos (length_putNat_pos _) _
  reads op h := by
    have hnumber := toNat_toUInt32 op.number_lt
    have hread := reads_word32 op.number.toUInt32
    rw [hnumber] at hread
    refine hread.bind ?_
    rw [hnumber]
    exact reads_operands (fits_append h).2

end Op

theorem Instruction.codec (depth : Nat) : Codec depth Instruction.put (Instruction.get depth) where
  length_pos i := length_append_pos ((Op.codec depth).length_pos _) _
  reads i h := by
    exact (Op.codec depth).bind h fun h => ((codec_word32 depth).option.reads _ h).last _

/-! ## Definitions -/

theorem TypeKind.codec (depth : Nat) : Codec depth TypeKind.put TypeKind.get where
  length_pos k := by
    cases k with
    | classType | structType | interfaceType => exact length_putNat_pos _
    | enumType p => exact length_append_pos (length_putNat_pos _) _
  reads k h := by
    cases k with
    | classType => exact reads_bare 0 rfl
    | structType => exact reads_bare 1 rfl
    | interfaceType => exact reads_bare 2 rfl
    | enumType p => exact reads_choice 3 (((Primitive.codec depth).reads p (fits_append h).2).last _)

theorem FieldDef.codec (depth : Nat) : Codec depth FieldDef.put (FieldDef.get depth) where
  length_pos f := by
    simp only [put, append_assoc]
    exact length_append_pos ((codec_text depth).length_pos _) _
  reads f h := by
    simp only [put, append_assoc] at h ⊢
    exact (codec_text depth).bind h fun h => (TypeRef.codec depth).bind h fun _ =>
      (reads_bool _).last _

theorem TypeId.codec (depth : Nat) :
    Codec depth (fun t : TypeId => putNat t.index) (TypeId.mk <$> word32) :=
  ⟨fun _ => length_putNat_pos _, fun t _ => (reads_word32 t.val).map _⟩

theorem MethodId.codec (depth : Nat) :
    Codec depth (fun m : MethodId => putNat m.index) (MethodId.mk <$> word32) :=
  ⟨fun _ => length_putNat_pos _, fun m _ => (reads_word32 m.val).map _⟩

theorem TypeDef.codec (depth : Nat) : Codec depth TypeDef.put (TypeDef.get depth) where
  length_pos d := by
    simp only [put, append_assoc]
    exact length_append_pos ((codec_text depth).length_pos _) _
  reads d h := by
    have htypes := TypeRef.codec depth
    have hflags := codec_bool depth
    simp only [put, append_assoc] at h ⊢
    refine (codec_text depth).bind h fun h => (TypeKind.codec depth).bind h fun h => ?_
    refine htypes.option.bind h fun h => htypes.list.bind h fun h => ?_
    refine (codec_word16 depth).bind h fun h => hflags.bind h fun h => hflags.bind h fun h => ?_
    exact hflags.bind h fun h => (FieldDef.codec depth).list.bind h fun h =>
      ((MethodId.codec depth).list.reads _ h).last _

theorem Body.codec (depth : Nat) : Codec depth Body.put (Body.get depth) where
  length_pos _ := length_append_pos ((TypeRef.codec depth).list.length_pos _) _
  reads _ h := (TypeRef.codec depth).list.bind h fun h =>
    ((Instruction.codec depth).array.reads _ h).last _

theorem MethodDef.codec (depth : Nat) : Codec depth MethodDef.put (MethodDef.get depth) where
  length_pos m := by
    simp only [put, append_assoc]
    exact length_append_pos ((codec_text depth).length_pos _) _
  reads m h := by
    have htypes := TypeRef.codec depth
    have hflags := codec_bool depth
    simp only [put, append_assoc] at h ⊢
    refine (codec_text depth).bind h fun h => (TypeId.codec depth).bind h fun h => ?_
    refine htypes.list.bind h fun h => htypes.bind h fun h => ?_
    refine hflags.bind h fun h => hflags.bind h fun h => hflags.bind h fun h => ?_
    exact (MethodId.codec depth).list.bind h fun h => hflags.bind h fun h =>
      ((Body.codec depth).option.reads _ h).last _

theorem Program.codec (depth : Nat) : Codec depth Program.toBytes (Program.get depth) where
  length_pos _ := length_append_pos ((TypeDef.codec depth).array.length_pos _) _
  reads _ h := (TypeDef.codec depth).array.bind h fun h =>
    ((MethodDef.codec depth).array.reads _ h).last _

/-! ## Host maps -/

theorem HostField.codec (depth : Nat) : Codec depth HostField.put HostField.get where
  length_pos f := by
    simp only [put, append_assoc]
    exact length_append_pos ((codec_text depth).length_pos _) _
  reads f h := by
    simp only [put, append_assoc] at h ⊢
    have htags : Codec depth (putVariant Tag.all) (variant Tag.all) :=
      codec_variant _ depth (by intro t; cases t <;> decide) (by decide)
    exact (codec_text depth).bind h fun h => (codec_text depth).bind h fun h =>
      (codec_word16 depth).bind h fun h => htags.bind h fun _ => (reads_word16 _).last _

/-! ## Whole forms -/

/-- **Programs and host maps are read back** from their wire forms, whatever follows them. Lengths are
words of 64 bits, and no memory holds a form that is longer than these can count. -/
theorem Wire.forms_read_back :
    (∀ (p : Program) (rest : List UInt8), p.toBytes.length < UInt64.size →
      Program.ofBytes (p.toBytes ++ rest) = .ok p) ∧
    ∀ (m : HostMap) (rest : List UInt8), m.toBytes.length < UInt64.size →
      HostMap.ofBytes (m.toBytes ++ rest) = .ok m := by
  refine ⟨fun p rest hp => ?_, fun m rest hm => ?_⟩
  · unfold Program.ofBytes
    rw [(Program.codec _).reads p ⟨?_, hp⟩]
    · rfl
    · rw [length_append]
      omega
  · unfold HostMap.ofBytes HostMap.toBytes
    rw [(HostField.codec _).list.reads m.fields ⟨Nat.le_refl _, hm⟩]
    rfl

/-- A program with nested types, constants at the ends of their ranges, and one that is not a number. -/
def Wire.gauge : Program where
  types := #[
    { name := "Gauge<T>", base := some (.named ⟨4294967295⟩ [.array (.byRef (.param 65535))])
      genericParams := 128, isHostSurface := true
      fields := [{ name := "größe", type := .pointer (.named ⟨0⟩ [.string, .object]) }]
      methods := [⟨0⟩] },
    { name := "Mode", kind := .enumType .i64 }]
  methods := #[
    { name := "Main", declaring := ⟨0⟩, ret := .primitive .f64, overrides := [⟨16384⟩]
      body := some {
        locals := [.array (.array (.primitive .u8))]
        code := #[{ op := .const (.i4 (-2147483648)), line := some 4294967295 },
          { op := .const (.i8 (-9223372036854775808)) }, { op := .const (.r8 0x7FF0000000000001) },
          { op := .switch [0, 127, 128, 18446744073709551615] }, { op := .text "€" },
          { op := .call true ⟨.named ⟨1⟩ [], "Set", [.primitive .i64], .void, true⟩ },
          { op := .storeElement (.any (.param 0)) }, { op := .ret }] } }]

def Wire.gaugeMap : HostMap where
  fields := [⟨"größe", "Gauge::größe", 65535, .reference, 128⟩]

theorem Wire.gauge_read_back :
    gauge.toBytes.length < UInt64.size ∧ Program.ofBytes (gauge.toBytes ++ [255, 0]) = .ok gauge ∧
      gaugeMap.toBytes.length < UInt64.size ∧
      HostMap.ofBytes (gaugeMap.toBytes ++ []) = .ok gaugeMap := by
  have hprogram : gauge.toBytes.length < UInt64.size := by decide +kernel
  have hmap : gaugeMap.toBytes.length < UInt64.size := by decide +kernel
  exact ⟨hprogram, forms_read_back.1 gauge [255, 0] hprogram, hmap, forms_read_back.2 gaugeMap [] hmap⟩

end DeviceCode
