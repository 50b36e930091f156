import DeviceCode.Proofs.CUnit.Arithmetic
import DeviceCode.Proofs.Machine.IntegerSlots

/-!
# Shapes of values

A shape is a set of values: the integers of an interval, the floats or the references. `Shape.ofTag` is
the shape of what a slot of the tag gives when it is loaded, and just the values of that shape come back
unchanged from such a slot (`Tag.keeps_iff`). The operations of the machine map shapes to shapes
(`Shape.binary`, `Shape.ofConversion`).
-/

namespace DeviceCode

open Value

open SlotArea

variable {area : SlotArea} {offset position : Nat} {t : Tag} {v : Value} {high : Int}
  {s a b : Shape} {n : Int32}

/-! ## Values that come back from a slot -/

namespace SlotArea

theorem tagAt?_bound (h : area.tagAt? offset = some t) : offset + 1 + t.width ≤ area.size := by
  obtain ⟨b, -, h⟩ := Option.bind_eq_some_iff.1 h
  obtain ⟨t', -, h⟩ := Option.bind_eq_some_iff.1 h
  split at h
  · rename_i hle
    exact Option.some.inj h ▸ hle
  · cases h

theorem valueAt_write {bytes : List UInt8} (hlength : bytes.length = t.width)
    (hsize : position + t.width ≤ area.size) :
    (area.write position bytes).valueAt position t = valueAt bytes.toArray 0 t := by
  have hbyte : ∀ i < t.width,
      (area.write position bytes).byteAt (position + i) = byteAt bytes.toArray i := by
    intro i hi
    rw [byteAt, byteAt, getElem?_write_inside (by omega) (by omega), List.getElem?_toArray]
  cases t with
  | bool | u8 | i8 => simp [valueAt, ← hbyte 0 (by decide), Nat.add_zero]
  | char | i16 | u16 =>
    simp [valueAt, wordAt, ← hbyte 0 (by decide), ← hbyte 1 (by decide), Nat.zero_add,
      Nat.add_zero]
  | i32 | u32 | f32 | reference =>
    have hdouble : (area.write position bytes).doubleAt position = doubleAt bytes.toArray 0 := by
      simp [doubleAt, ← hbyte 0 (by decide), ← hbyte 1 (by decide), ← hbyte 2 (by decide),
        ← hbyte 3 (by decide), Nat.zero_add, Nat.add_zero]
    unfold valueAt
    rw [hdouble]
  | arrayHeader | string | objectHeader | methodPointer | address | value | boxed => rfl

theorem wordAt_bytes16 (w : UInt16) : wordAt (Word.bytes16 w).toArray 0 = w :=
  Word.ofBytes16_bytes16 w

theorem doubleAt_bytes32 (w : UInt32) : doubleAt (Word.bytes32 w).toArray 0 = w :=
  Word.ofBytes32_bytes32 w

theorem load_store {area' : SlotArea} (htag : area.tagAt? offset = some t)
    (hstore : area.store offset v = some area') :
    ∃ bytes, payload v t = some bytes ∧ area'.load offset = valueAt bytes.toArray 0 t := by
  unfold store at hstore
  rw [htag, Option.bind_eq_bind, Option.bind_some] at hstore
  obtain ⟨bytes, hbytes, hwrite⟩ := Option.bind_eq_some_iff.1 hstore
  obtain rfl := Option.some.inj hwrite
  have hlength := length_payload hbytes
  have hbound := tagAt?_bound htag
  have htag' : (area.write (offset + 1) bytes).tagAt? offset = some t := by
    rw [← htag, tagAt?, tagAt?, getElem?_write_outside (by omega), size_write]
  refine ⟨bytes, hbytes, ?_⟩
  rw [load, htag']
  exact valueAt_write hlength (by omega)

end SlotArea

namespace Tag

/-- The tags of slots that can be loaded and stored. -/
def isLoadable (t : Tag) : Bool := t.isNumeric || t == reference

/-- A slot of the tag gives the value back that was stored in it. -/
def Keeps (t : Tag) (v : Value) : Prop :=
  ∀ (area : SlotArea) (offset : Nat), area.tagAt? offset = some t →
    ∃ area', area.store offset v = some area' ∧ area'.load offset = some v

end Tag

/-! ## Shapes -/

/-- A set of values. -/
inductive Shape where
  | ints (low high : Int)
  | float
  /-- The null reference, or a handle that is not zero. -/
  | reference
  | any
  deriving DecidableEq

namespace Shape

def Has : Shape → Value → Prop
  | ints low high, .i4 n => low ≤ n.toInt ∧ n.toInt ≤ high
  | float, .r4 _ => True
  | reference, .null => True
  | reference, .i4 n => n ≠ 0
  | any, _ => True
  | _, _ => False

/-- All integers. -/
def int32 : Shape := ints (-2147483648) 2147483647

/-- What a slot of the tag gives. -/
def ofTag : Tag → Shape
  | .bool | .u8 => ints 0 255
  | .i8 => ints (-128) 127
  | .char | .u16 => ints 0 65535
  | .i16 => ints (-32768) 32767
  | .i32 | .u32 => int32
  | .f32 => float
  | .reference => reference
  | _ => any

/-- Every value of the first shape has the second. -/
def le : Shape → Shape → Bool
  | _, any => true
  | ints low high, ints low' high' => low' ≤ low && high ≤ high'
  | ints low high, reference => 0 < low || high < 0
  | float, float => true
  | reference, reference => true
  | _, _ => false

theorem Has.eq_i4 {low : Int} (h : (ints low high).Has v) : ∃ n, v = .i4 n := by
  cases v with
  | i4 n => exact ⟨n, rfl⟩
  | r4 _ | null => cases h

theorem Has.of_le {s' : Shape} (hle : s.le s' = true) (h : s.Has v) : s'.Has v := by
  cases s' with
  | any => exact trivial
  | ints low' high' =>
    cases s with
    | ints low high =>
      obtain ⟨n, rfl⟩ := h.eq_i4
      simp only [le, Bool.and_eq_true, decide_eq_true_eq] at hle
      exact ⟨Int.le_trans hle.1 h.1, Int.le_trans h.2 hle.2⟩
    | float | reference | any => cases hle
  | float =>
    cases s with
    | float => exact h
    | ints _ _ | reference | any => cases hle
  | reference =>
    cases s with
    | reference => exact h
    | ints low high =>
      obtain ⟨n, rfl⟩ := h.eq_i4
      simp only [le, Bool.or_eq_true, decide_eq_true_eq] at hle
      have hn : low ≤ n.toInt ∧ n.toInt ≤ high := h
      rintro rfl
      have hzero : (0 : Int32).toInt = 0 := rfl
      omega
    | float | any => cases hle

/-! ## Integers of a width -/

theorem int32_has (n : Int32) : int32.Has (.i4 n) := by
  have hn := toInt_cases n
  show _ ≤ n.toInt ∧ n.toInt ≤ _
  omega

theorem byte_has (b : UInt8) : (ints 0 255).Has (.i4 b.toUInt32.toInt32) := by
  have hn := toInt_cases b.toUInt32.toInt32
  have hb := b.toNat_lt
  rw [UInt32.toUInt32_toInt32, UInt8.toNat_toUInt32] at hn
  show _ ≤ b.toUInt32.toInt32.toInt ∧ b.toUInt32.toInt32.toInt ≤ _
  omega

theorem word_has (w : UInt16) : (ints 0 65535).Has (.i4 w.toUInt32.toInt32) := by
  have hn := toInt_cases w.toUInt32.toInt32
  have hw := w.toNat_lt
  rw [UInt32.toUInt32_toInt32, UInt16.toNat_toUInt32] at hn
  show _ ≤ w.toUInt32.toInt32.toInt ∧ w.toUInt32.toInt32.toInt ≤ _
  omega

theorem int8_has (n : Int8) : (ints (-128) 127).Has (.i4 n.toInt32) := by
  show _ ≤ n.toInt32.toInt ∧ n.toInt32.toInt ≤ _
  rw [Int8.toInt_toInt32]
  exact ⟨n.le_toInt, Int.lt_add_one_iff.1 n.toInt_lt⟩

theorem int16_has (n : Int16) : (ints (-32768) 32767).Has (.i4 n.toInt32) := by
  show _ ≤ n.toInt32.toInt ∧ n.toInt32.toInt ≤ _
  rw [Int16.toInt_toInt32]
  exact ⟨n.le_toInt, Int.lt_add_one_iff.1 n.toInt_lt⟩

theorem toNat_le_of_has (h : (ints 0 high).Has (.i4 n)) :
    (n.toUInt32.toNat : Int) ≤ high := by
  have hn := toInt_cases n
  have h : 0 ≤ n.toInt ∧ n.toInt ≤ high := h
  omega

theorem cut_byte (h : (ints 0 255).Has (.i4 n)) :
    n.toUInt32.toUInt8.toUInt32.toInt32 = n := by
  have hlt := toNat_le_of_has h
  have hword : n.toUInt32.toUInt8.toUInt32 = n.toUInt32 := by
    apply UInt32.toNat_inj.1
    rw [UInt8.toNat_toUInt32, UInt32.toNat_toUInt8]
    omega
  rw [hword, Int32.toInt32_toUInt32]

theorem cut_word (h : (ints 0 65535).Has (.i4 n)) :
    n.toUInt32.toUInt16.toUInt32.toInt32 = n := by
  have hlt := toNat_le_of_has h
  have hword : n.toUInt32.toUInt16.toUInt32 = n.toUInt32 := by
    apply UInt32.toNat_inj.1
    rw [UInt16.toNat_toUInt32, UInt32.toNat_toUInt16]
    omega
  rw [hword, Int32.toInt32_toUInt32]

theorem cut_int8 (h : (ints (-128) 127).Has (.i4 n)) :
    n.toUInt32.toUInt8.toInt8.toInt32 = n := by
  have h : -128 ≤ n.toInt ∧ n.toInt ≤ 127 := h
  apply Int32.toInt_inj.1
  have hcut : n.toUInt32.toUInt8.toInt8 = n.toInt8 := Int8.toBitVec_inj.1
    (BitVec.signExtend_eq_setWidth_of_le n.toBitVec (by decide)).symm
  rw [Int8.toInt_toInt32, hcut, Int32.toInt_toInt8]
  exact Int.bmod_eq_of_le (by omega) (by omega)

theorem cut_int16 (h : (ints (-32768) 32767).Has (.i4 n)) :
    n.toUInt32.toUInt16.toInt16.toInt32 = n := by
  have h : -32768 ≤ n.toInt ∧ n.toInt ≤ 32767 := h
  apply Int32.toInt_inj.1
  have hcut : n.toUInt32.toUInt16.toInt16 = n.toInt16 := Int16.toBitVec_inj.1
    (BitVec.signExtend_eq_setWidth_of_le n.toBitVec (by decide)).symm
  rw [Int16.toInt_toInt32, hcut, Int32.toInt_toInt16]
  exact Int.bmod_eq_of_le (by omega) (by omega)

/-! ## Slots -/

theorem valueAt_has (h : area.valueAt position t = some v) : (ofTag t).Has v := by
  cases t with
  | bool | u8 => exact Option.some.inj h ▸ byte_has _
  | i8 => exact Option.some.inj h ▸ int8_has _
  | char | u16 => exact Option.some.inj h ▸ word_has _
  | i16 => exact Option.some.inj h ▸ int16_has _
  | i32 | u32 => exact Option.some.inj h ▸ int32_has _
  | f32 => exact Option.some.inj h ▸ trivial
  | reference =>
    obtain rfl := Option.some.inj h
    split
    · exact trivial
    · rename_i hhandle
      intro hzero
      exact hhandle ((UInt32.toUInt32_toInt32 _).symm.trans (congrArg Int32.toUInt32 hzero))
  | arrayHeader | string | objectHeader | methodPointer | address | value | boxed => exact trivial

theorem load_has (htag : area.tagAt? offset = some t) (h : area.load offset = some v) :
    (ofTag t).Has v := by
  rw [load, htag] at h
  exact valueAt_has h

theorem valueAt_payload (ht : t.isLoadable = true) (h : (ofTag t).Has v) :
    ∃ bytes, SlotArea.payload v t = some bytes ∧
      SlotArea.valueAt bytes.toArray 0 t = some v := by
  cases t with
  | bool | u8 =>
    obtain ⟨n, rfl⟩ := h.eq_i4
    exact ⟨_, rfl, congrArg (some ∘ i4) (cut_byte h)⟩
  | i8 =>
    obtain ⟨n, rfl⟩ := h.eq_i4
    exact ⟨_, rfl, congrArg (some ∘ i4) (cut_int8 h)⟩
  | char | u16 =>
    obtain ⟨n, rfl⟩ := h.eq_i4
    refine ⟨_, rfl, ?_⟩
    rw [valueAt, wordAt_bytes16]
    exact congrArg (some ∘ i4) (cut_word h)
  | i16 =>
    obtain ⟨n, rfl⟩ := h.eq_i4
    refine ⟨_, rfl, ?_⟩
    rw [valueAt, wordAt_bytes16]
    exact congrArg (some ∘ i4) (cut_int16 h)
  | i32 | u32 =>
    obtain ⟨n, rfl⟩ := h.eq_i4
    refine ⟨_, rfl, ?_⟩
    rw [valueAt, doubleAt_bytes32]
    exact congrArg (some ∘ i4) (Int32.toInt32_toUInt32 n)
  | f32 =>
    cases v with
    | r4 bits =>
      refine ⟨_, rfl, ?_⟩
      rw [valueAt, doubleAt_bytes32]
      rfl
    | i4 _ | null => cases h
  | reference =>
    refine ⟨_, rfl, ?_⟩
    rw [valueAt, doubleAt_bytes32]
    cases v with
    | null => rfl
    | i4 n =>
      have hne : n.toUInt32 ≠ 0 := fun hzero =>
        h ((Int32.toInt32_toUInt32 n).symm.trans (congrArg UInt32.toInt32 hzero))
      show some (if n.toUInt32 = 0 then null else .i4 n.toUInt32.toInt32) = _
      rw [if_neg hne, Int32.toInt32_toUInt32]
    | r4 _ => cases h
  | arrayHeader | string | objectHeader | methodPointer | address | value | boxed => cases ht

end Shape

/-- **A slot gives back just the values that have the shape of its tag.** -/
theorem Tag.keeps_iff (ht : t.isLoadable = true) : t.Keeps v ↔ (Shape.ofTag t).Has v := by
  constructor
  · intro h
    have htag : tagAt? (AreaSlots.emptySlot t).toArray 0 = some t := by cases t <;> rfl
    obtain ⟨area', hstore, hload⟩ := h _ 0 htag
    obtain ⟨bytes, -, hvalue⟩ := load_store htag hstore
    exact Shape.valueAt_has (hvalue.symm.trans hload)
  · intro h area offset htag
    obtain ⟨bytes, hbytes, hvalue⟩ := Shape.valueAt_payload ht h
    have hstore : area.store offset v = some (area.write (offset + 1) bytes) := by
      rw [store, htag, Option.bind_eq_bind, Option.bind_some, hbytes]
      rfl
    obtain ⟨bytes', hbytes', hload⟩ := load_store htag hstore
    rw [hbytes] at hbytes'
    obtain rfl := Option.some.inj hbytes'
    exact ⟨_, hstore, hload.trans hvalue⟩

namespace Shape

/-! ## Operations -/

/-- The value alone, or all of its kind. -/
def ofValue : Value → Shape
  | .i4 n => ints n.toInt n.toInt
  | .r4 _ => float
  | .null => reference

theorem ofValue_has (v : Value) : (ofValue v).Has v := by
  cases v with
  | i4 n => exact ⟨Int.le_refl _, Int.le_refl _⟩
  | r4 _ | null => exact trivial

/-- The result on two integers is one without sign of at most so many bits. -/
def staysBelow (op : BinaryOp) (a b : Shape) (high : Int) : Bool :=
  match op with
  | .and => a.le (ints 0 high) || b.le (ints 0 high)
  | .or | .xor => a.le (ints 0 high) && b.le (ints 0 high)
  | _ => false

def ofIntegers (op : BinaryOp) (a b : Shape) : Shape :=
  if staysBelow op a b 255 then ints 0 255
  else if staysBelow op a b 65535 then ints 0 65535
  else int32

/-- The result of an operation; an integer beside a float becomes a float. -/
def binary (kind : UInt8) (a b : Shape) : Shape :=
  if a = float ∨ b = float then float
  else if a = any ∨ b = any then any
  else
    match BinaryOp.ofByte? kind with
    | some op => ofIntegers op a b
    | none => any

def neg : Shape → Shape
  | float => float
  | any => any
  | _ => int32

def ofConversion : Conversion → Shape
  | .r4 | .fromUnsigned => float
  | .i1 => ints (-128) 127
  | .i2 => ints (-32768) 32767
  | .u1 => ints 0 255
  | .u2 => ints 0 65535
  | .i4 | .u4 => int32

theorem has_of_toNat (hn : (n.toUInt32.toNat : Int) ≤ high) (hhigh : high < 2147483648) :
    (ints 0 high).Has (.i4 n) := by
  have hcases := toInt_cases n
  show 0 ≤ n.toInt ∧ n.toInt ≤ high
  omega

theorem bits_le (hhigh : high = 255 ∨ high = 65535) {x y : Nat} (hx : (x : Int) ≤ high)
    (hy : (y : Int) ≤ high) : ((x ||| y : Nat) : Int) ≤ high ∧ ((x ^^^ y : Nat) : Int) ≤ high := by
  rcases hhigh with rfl | rfl
  · have hor := Nat.or_lt_two_pow (n := 8) (x := x) (y := y) (by omega) (by omega)
    have hxor := Nat.xor_lt_two_pow (n := 8) (x := x) (y := y) (by omega) (by omega)
    omega
  · have hor := Nat.or_lt_two_pow (n := 16) (x := x) (y := y) (by omega) (by omega)
    have hxor := Nat.xor_lt_two_pow (n := 16) (x := x) (y := y) (by omega) (by omega)
    omega

variable {x y : Value} {op : BinaryOp} {kind : UInt8}

/-- A mask cuts an integer to its bits, and integers of so many bits are put together. -/
theorem staysBelow_has (hhigh : high = 255 ∨ high = 65535)
    (hstays : staysBelow op a b high = true) {x y k : Int32} (hx : a.Has (.i4 x))
    (hy : b.Has (.i4 y)) (hk : Value.integerOp x y op = .ok k) : (ints 0 high).Has (.i4 k) := by
  have hsmall : high < 2147483648 := by omega
  cases op with
  | and =>
    cases hk
    refine has_of_toNat ?_ hsmall
    rw [Int32.toUInt32_and, UInt32.toNat_and]
    simp only [staysBelow, Bool.or_eq_true] at hstays
    rcases hstays with hle | hle
    · have hx := toNat_le_of_has (hx.of_le hle)
      have hand : x.toUInt32.toNat &&& y.toUInt32.toNat ≤ x.toUInt32.toNat := Nat.and_le_left
      omega
    · have hy := toNat_le_of_has (hy.of_le hle)
      have hand : x.toUInt32.toNat &&& y.toUInt32.toNat ≤ y.toUInt32.toNat := Nat.and_le_right
      omega
  | or =>
    cases hk
    refine has_of_toNat ?_ hsmall
    simp only [staysBelow, Bool.and_eq_true] at hstays
    exact (bits_le hhigh (toNat_le_of_has (hx.of_le hstays.1))
      (toNat_le_of_has (hy.of_le hstays.2))).1
  | xor =>
    cases hk
    refine has_of_toNat ?_ hsmall
    simp only [staysBelow, Bool.and_eq_true] at hstays
    exact (bits_le hhigh (toNat_le_of_has (hx.of_le hstays.1))
      (toNat_le_of_has (hy.of_le hstays.2))).2
  | _ => cases hstays

theorem ofIntegers_has {x y k : Int32} (hx : a.Has (.i4 x)) (hy : b.Has (.i4 y))
    (hk : Value.integerOp x y op = .ok k) : (ofIntegers op a b).Has (.i4 k) := by
  unfold ofIntegers
  split
  · exact staysBelow_has (.inl rfl) (by assumption) hx hy hk
  · split
    · exact staysBelow_has (.inr rfl) (by assumption) hx hy hk
    · exact int32_has k

theorem binary_cases (h : Value.binary kind x y = .ok v) :
    (∃ n m op k, x = .i4 n ∧ y = .i4 m ∧ BinaryOp.ofByte? kind = some op ∧
      Value.integerOp n m op = .ok k ∧ v = .i4 k) ∨
    ((∃ bits, x = .r4 bits) ∨ ∃ bits, y = .r4 bits) ∧ ∃ bits, v = .r4 bits := by
  unfold Value.binary at h
  split at h
  · rename_i n m
    split at h
    · rename_i op hop
      obtain ⟨k, hk, rfl⟩ := except_map_ok.1 h
      exact .inl ⟨n, m, op, k, rfl, rfl, hop, hk, rfl⟩
    · cases h
  · rename_i hints
    obtain ⟨f, hf, h⟩ := except_bind_ok.1 h
    obtain ⟨g, hg, h⟩ := except_bind_ok.1 h
    split at h
    · obtain ⟨bits, -, h⟩ := except_bind_ok.1 h
      refine .inr ⟨?_, bits, (Except.ok.inj h).symm⟩
      cases x with
      | null => cases hf
      | r4 bits => exact .inl ⟨bits, rfl⟩
      | i4 n =>
        cases y with
        | null => cases hg
        | r4 bits => exact .inr ⟨bits, rfl⟩
        | i4 m => exact (hints n m rfl rfl).elim
    · cases h

theorem binary_has (hx : a.Has x) (hy : b.Has y)
    (h : Value.binary kind x y = .ok v) : (binary kind a b).Has v := by
  unfold binary
  split
  · rename_i hfloat
    rcases binary_cases h with ⟨n, m, op, k, rfl, rfl, -⟩ | ⟨-, bits, rfl⟩
    · rcases hfloat with rfl | rfl
      · cases hx
      · cases hy
    · exact trivial
  · rename_i hfloat
    split
    · exact trivial
    · rename_i hany
      rw [not_or] at hfloat hany
      rcases binary_cases h with ⟨n, m, op, k, rfl, rfl, hop, hk, rfl⟩ | ⟨hfloats, -⟩
      · rw [hop]
        exact ofIntegers_has hx hy hk
      · rcases hfloats with ⟨bits, rfl⟩ | ⟨bits, rfl⟩
        · cases a with
          | float => exact absurd rfl hfloat.1
          | any => exact absurd rfl hany.1
          | ints _ _ | reference => cases hx
        · cases b with
          | float => exact absurd rfl hfloat.2
          | any => exact absurd rfl hany.2
          | ints _ _ | reference => cases hy

theorem neg_has (hx : s.Has x) (h : x.neg = .ok v) : s.neg.Has v := by
  cases x with
  | null => cases h
  | i4 n =>
    cases h
    cases s with
    | ints _ _ | reference => exact int32_has _
    | float => cases hx
    | any => exact trivial
  | r4 bits =>
    cases h
    cases s with
    | ints _ _ | reference => cases hx
    | float | any => exact trivial

theorem complement_has (h : x.complement = .ok v) : int32.Has v := by
  cases x with
  | i4 n =>
    cases h
    exact int32_has _
  | r4 _ | null => cases h

theorem convert_has {conversion : Conversion} (h : x.convert conversion = .ok v) :
    (ofConversion conversion).Has v := by
  cases conversion with
  | r4 | fromUnsigned =>
    obtain ⟨n, -, rfl⟩ := except_functor_ok.1 h
    exact trivial
  | i1 =>
    obtain ⟨n, -, rfl⟩ := except_functor_ok.1 h
    exact int8_has _
  | i2 =>
    obtain ⟨n, -, rfl⟩ := except_functor_ok.1 h
    exact int16_has _
  | i4 =>
    obtain ⟨n, -, rfl⟩ := except_functor_ok.1 h
    exact int32_has _
  | u1 =>
    obtain ⟨n, -, rfl⟩ := except_functor_ok.1 h
    exact byte_has _
  | u2 =>
    obtain ⟨n, -, rfl⟩ := except_functor_ok.1 h
    exact word_has _
  | u4 =>
    unfold convert at h
    dsimp only at h
    split at h
    · cases h
      exact int32_has _
    · obtain ⟨n, -, rfl⟩ := except_functor_ok.1 h
      exact int32_has n

theorem ofBool_has (b : Bool) : (ints 0 1).Has (.ofBool b) := by
  cases b <;> exact ⟨by decide, by decide⟩

theorem call_has {signature : String} {floatResult : Bool} {args : List Value}
    (h : Library.call signature floatResult args = some v) :
    (if floatResult then float else int32).Has v := by
  unfold Library.call at h
  obtain ⟨name, -, h⟩ := Option.bind_eq_some_iff.1 h
  cases floatResult with
  | true =>
    obtain ⟨xs, -, h⟩ := Option.bind_eq_some_iff.1 h
    obtain ⟨bits, -, h⟩ := Option.bind_eq_some_iff.1 h
    cases h
    exact trivial
  | false =>
    simp only [Bool.false_eq_true, if_false] at h ⊢
    split at h
    · obtain ⟨x, -, h⟩ := Option.bind_eq_some_iff.1 h
      obtain ⟨bits, -, h⟩ := Option.bind_eq_some_iff.1 h
      cases h
      exact int32_has _
    · obtain ⟨xs, -, h⟩ := Option.bind_eq_some_iff.1 h
      obtain ⟨n, -, h⟩ := Option.bind_eq_some_iff.1 h
      cases h
      exact int32_has n

end Shape

end DeviceCode
