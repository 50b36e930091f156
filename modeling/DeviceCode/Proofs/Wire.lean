import DeviceCode.Proofs.Bytes
import DeviceCode.Wire

/-!
# Reading the wire format back

`Wire.Reads read bytes a`: from the bytes, whatever follows them, the reader gets `a` and leaves what
follows. Readers in sequence read bytes in sequence (`Reads.bind`), so that every reader is compared with
its writer part by part: numbers, texts, options, lists, and the choice among alternatives.

Lengths are words of 64 bits. `Wire.Fits depth bytes` says that the bytes are fewer than that, and no more
than the bound that a reader of nested values has.
-/

namespace DeviceCode

open Word

open List

variable {α : Type} {bytes : List UInt8}

namespace Wire

/-- From the bytes, whatever follows them, the reader gets the value and leaves what follows. -/
def Reads {α : Type} (read : WireM α) (bytes : List UInt8) (a : α) : Prop :=
  ∀ rest, read (bytes ++ rest) = .ok (a, rest)

namespace Reads

variable {β : Type} {x : WireM α} {f : α → WireM β} {bytes' : List UInt8} {a : α} {b : β}

theorem pure (a : α) : Reads (pure a) [] a := fun _ => rfl

theorem bind (hx : Reads x bytes a) (hf : Reads (f a) bytes' b) :
    Reads (x >>= f) (bytes ++ bytes') b := by
  intro rest
  show (x (bytes ++ bytes' ++ rest) >>= fun r => f r.1 r.2) = .ok (b, rest)
  rw [append_assoc, hx]
  exact hf rest

theorem bind_nil (hx : Reads x bytes a) (hf : Reads (f a) [] b) : Reads (x >>= f) bytes b := by
  have h := hx.bind hf
  rwa [append_nil] at h

theorem last (hx : Reads x bytes a) (g : α → β) :
    Reads (x >>= fun a => Pure.pure (g a)) bytes (g a) := hx.bind_nil (pure (g a))

theorem map (hx : Reads x bytes a) (g : α → β) : Reads (g <$> x) bytes (g a) := hx.last g

theorem of_eq (hx : Reads x bytes a) {a' : α} (h : a = a') : Reads x bytes a' := h ▸ hx

end Reads

/-! ## Numbers -/

/-- How many numbers have `k + 1` groups, of which the last is at most `last`. -/
def capacity (last : Nat) : (k : Nat) → Nat
  | 0 => last + 1
  | k + 1 => 128 * capacity last k

variable {f : UInt32 → WireM α} {n : Nat} {a : α}

theorem reads_byte_bind {f : UInt8 → WireM α} {b : UInt8} (h : Reads (f b) bytes a) :
    Reads (byte >>= f) (b :: bytes) a := fun rest => h rest

theorem toNat_toUInt8 (h : n < 256) : n.toUInt8.toNat = n := by
  simp only [Nat.toUInt8_eq, UInt8.toNat_ofNat']
  omega

/-- A number is read back from its groups, if it needs no more of them than are read. -/
theorem reads_groups (last : Nat) (hlast : last < 128) : ∀ {k j n : Nat}, k < j →
    n < capacity last k → Reads (groups last (k + 1)) (putGroups j n) n
  | _, 0, _, hj, _ => absurd hj (Nat.not_lt_zero _)
  | k, j + 1, n, hj, hn => by
    rw [groups, putGroups]
    split
    · rename_i hsmall
      refine reads_byte_bind ?_
      simp only [toNat_toUInt8 (Nat.lt_trans hsmall (by decide : 128 < 256)), if_pos hsmall]
      rw [if_neg]
      · exact .pure n
      · rintro ⟨rfl, hlt⟩
        simp only [capacity] at hn
        omega
    · cases k with
      | zero =>
        simp only [capacity] at hn
        omega
      | succ k =>
        refine reads_byte_bind ?_
        have hbyte : (n % 128 + 128).toUInt8.toNat = n % 128 + 128 := toNat_toUInt8 (by omega)
        simp only [hbyte, if_neg (show ¬n % 128 + 128 < 128 by omega)]
        have hrest := reads_groups last hlast (k := k) (j := j) (n := n / 128) (by omega)
          (by rw [capacity] at hn; omega)
        exact (hrest.last fun rest => n % 128 + 128 - 128 + 128 * rest).of_eq (by omega)

theorem reads_word16 (w : UInt16) : Reads word16 (putNat w.toNat) w :=
  ((reads_groups 3 (by decide) (k := 2) (j := 10) (by decide) w.toNat_lt).map _).of_eq
    UInt16.ofNat_toNat

theorem reads_word32 (w : UInt32) : Reads word32 (putNat w.toNat) w :=
  ((reads_groups 15 (by decide) (k := 4) (j := 10) (by decide) w.toNat_lt).map _).of_eq
    UInt32.ofNat_toNat

theorem reads_word64 (w : UInt64) : Reads word64 (putNat w.toNat) w :=
  ((reads_groups 1 (by decide) (k := 9) (j := 10) (by decide) w.toNat_lt).map _).of_eq
    UInt64.ofNat_toNat

theorem unzigzag_zigzag (n : Int) : unzigzag (zigzag n) = n := by
  unfold zigzag unzigzag
  split <;> split <;> omega

theorem zigzag_lt {n : Int} (bound : Nat) (hlow : -(bound : Int) ≤ n) (hhigh : n < bound) :
    zigzag n < 2 * bound := by
  unfold zigzag
  split <;> omega

theorem reads_int32 (v : Int32) : Reads int32 (putInt v.toInt) v := by
  have hlt : zigzag v.toInt < 4294967296 := zigzag_lt 2147483648 v.le_toInt v.toInt_lt
  have h := (reads_word32 (zigzag v.toInt).toUInt32).map fun w => Int32.ofInt (unzigzag w.toNat)
  rw [toNat_toUInt32 hlt, unzigzag_zigzag, Int32.ofInt_toInt] at h
  exact h

theorem toNat_toUInt64 (h : n < UInt64.size) : n.toUInt64.toNat = n := by
  exact Nat.mod_eq_of_lt h

theorem reads_int64 (v : Int64) : Reads int64 (putInt v.toInt) v := by
  have hlt : zigzag v.toInt < UInt64.size :=
    zigzag_lt 9223372036854775808 v.le_toInt v.toInt_lt
  have h := (reads_word64 (zigzag v.toInt).toUInt64).map fun w => Int64.ofInt (unzigzag w.toNat)
  rw [toNat_toUInt64 hlt, unzigzag_zigzag, Int64.ofInt_toInt] at h
  exact h

theorem reads_bool (b : Bool) : Reads bool (putBool b) b := by
  cases b <;> exact fun _ => rfl

theorem reads_pattern32 (w : UInt32) : Reads pattern32 (Word.bytes32 w) w := by
  intro rest
  show Except.ok (ofBytes32 _ _ _ _, rest) = .ok (w, rest)
  rw [ofBytes32_bytes32]

theorem ofHalves_halves (w : UInt64) : Word.ofHalves w.toUInt32 (w >>> 32).toUInt32 = w := by
  have h := w.toNat_lt
  apply UInt64.toNat_inj.1
  simp only [ofHalves, UInt64.toNat_or, UInt64.toNat_shiftLeft, UInt32.toNat_toUInt64,
    UInt64.toNat_toUInt32, UInt64.toNat_shiftRight, UInt64.reduceToNat, Nat.reduceMod]
  rw [Nat.mod_eq_of_lt (a := _ <<< 32) (by omega),
    or_shiftLeft (n := 4294967296) rfl (by omega)]
  omega

theorem reads_pattern64 (w : UInt64) : Reads pattern64 (Word.bytes64 w) w := by
  intro rest
  show Except.ok (ofHalves (ofBytes32 _ _ _ _) (ofBytes32 _ _ _ _), rest) = .ok (w, rest)
  rw [ofBytes32_bytes32, ofBytes32_bytes32, ofHalves_halves]

/-! ## Values of any length -/

/-- The bytes are fewer than a length of 64 bits can count, and no more than the bound on the nesting. -/
structure Fits (depth : Nat) (bytes : List UInt8) : Prop where
  depth : bytes.length ≤ depth
  length : bytes.length < UInt64.size

theorem fits_append {depth : Nat} {bytes' : List UInt8} (h : Fits depth (bytes ++ bytes')) :
    Fits depth bytes ∧ Fits depth bytes' := by
  obtain ⟨hdepth, hlength⟩ := h
  rw [length_append] at hdepth hlength
  exact ⟨⟨by omega, by omega⟩, ⟨by omega, by omega⟩⟩

/-- What the first writes, in at least a byte, the second reads back. -/
structure Codec {α : Type} (depth : Nat) (put : α → List UInt8) (get : WireM α) : Prop where
  length_pos : ∀ a, 0 < (put a).length
  reads : ∀ a, Fits depth (put a) → Reads get (put a) a

theorem Codec.bind {β : Type} {depth : Nat} {put : α → List UInt8} {get : WireM α} {f : α → WireM β}
    {b : β} (hc : Codec depth put get) (h : Fits depth (put a ++ bytes))
    (hf : Fits depth bytes → Reads (f a) bytes b) : Reads (get >>= f) (put a ++ bytes) b :=
  (hc.reads a (fits_append h).1).bind (hf (fits_append h).2)

theorem length_putNat_pos (n : Nat) : 0 < (putNat n).length := by
  unfold putNat putGroups
  split <;> simp

theorem codec_word16 (depth : Nat) : Codec depth (fun w : UInt16 => putNat w.toNat) word16 :=
  ⟨fun _ => length_putNat_pos _, fun w _ => reads_word16 w⟩

theorem codec_word32 (depth : Nat) : Codec depth (fun w : UInt32 => putNat w.toNat) word32 :=
  ⟨fun _ => length_putNat_pos _, fun w _ => reads_word32 w⟩

theorem codec_word64 (depth : Nat) : Codec depth (fun w : UInt64 => putNat w.toNat) word64 :=
  ⟨fun _ => length_putNat_pos _, fun w _ => reads_word64 w⟩

theorem codec_bool (depth : Nat) : Codec depth putBool bool :=
  ⟨fun b => by cases b <;> decide, fun b _ => reads_bool b⟩

theorem reads_take (bytes : List UInt8) : Reads (take bytes.length) bytes bytes := by
  intro rest
  simp [take]

theorem reads_length {depth : Nat} (h : Fits depth bytes) (hn : n ≤ bytes.length) :
    Reads word64 (putNat n) n.toUInt64 ∧ n.toUInt64.toNat = n := by
  have hlt := toNat_toUInt64 (Nat.lt_of_le_of_lt hn h.length)
  have hread := reads_word64 n.toUInt64
  rw [hlt] at hread
  exact ⟨hread, hlt⟩

theorem ofUtf8?_utf8 (s : String) : Text.ofUtf8? (Text.utf8 s) = some s := dif_pos s.isValidUTF8

theorem codec_text (depth : Nat) : Codec depth putText text where
  length_pos s := by
    have := length_putNat_pos (Text.utf8 s).length
    simp only [putText, length_append]
    omega
  reads s h := by
    obtain ⟨hlength, hcount⟩ := reads_length (fits_append h).2 (Nat.le_refl _)
    refine hlength.bind ?_
    rw [hcount]
    refine (reads_take (Text.utf8 s)).bind_nil ?_
    rw [ofUtf8?_utf8]
    exact .pure s

section
variable {depth : Nat} {put : α → List UInt8} {get : WireM α} (hc : Codec depth put get)
include hc

theorem Codec.option : Codec depth (putOption put) (option get) where
  length_pos o := by cases o <;> simp [putOption]
  reads o h := by
    cases o with
    | none => exact fun _ => rfl
    | some a =>
      obtain ⟨-, ha⟩ : Fits depth [1] ∧ Fits depth (put a) := fits_append h
      exact reads_byte_bind ((hc.reads a ha).last some)

theorem Codec.length_le_flatMap (xs : List α) : xs.length ≤ (xs.flatMap put).length := by
  induction xs with
  | nil => exact Nat.le_refl _
  | cons x xs ih =>
    have := hc.length_pos x
    simp only [flatMap_cons, length_append, length_cons]
    omega

theorem Codec.reads_more {xs : List α} (h : Fits depth (xs.flatMap put)) (items : Array α) :
    Reads (more get xs.length items) (xs.flatMap put) (items ++ xs.toArray) := by
  induction xs generalizing items with
  | nil => exact (Reads.pure items).of_eq (by simp)
  | cons x xs ih =>
    obtain ⟨hx, hxs⟩ := fits_append h
    exact (hc.reads x hx).bind ((ih hxs (items.push x)).of_eq (by simp))

theorem Codec.array : Codec depth (fun xs : Array α => putList put xs.toList) (array get) where
  length_pos xs := by
    have := length_putNat_pos xs.toList.length
    simp only [putList, length_append]
    omega
  reads xs h := by
    obtain ⟨hlength, hcount⟩ := reads_length (fits_append h).2 (hc.length_le_flatMap xs.toList)
    refine hlength.bind ?_
    rw [hcount]
    exact (hc.reads_more (fits_append h).2 #[]).of_eq (by simp)

theorem Codec.list : Codec depth (putList put) (list get) where
  length_pos xs := hc.array.length_pos xs.toArray
  reads xs h := (hc.array.reads xs.toArray h).map Array.toList

end

/-! ## Alternatives -/

theorem codec_variant [DecidableEq α] (all : List α) (depth : Nat) (hall : ∀ a, a ∈ all)
    (hcount : all.length < 4294967296) : Codec depth (putVariant all) (variant all) where
  length_pos a := length_putNat_pos _
  reads a _ := by
    have hlt : all.idxOf a < all.length := idxOf_lt_length_of_mem (hall a)
    have hread := reads_word32 (all.idxOf a).toUInt32
    rw [toNat_toUInt32 (Nat.lt_trans hlt hcount)] at hread
    refine hread.bind_nil ?_
    rw [toNat_toUInt32 (Nat.lt_trans hlt hcount), getElem?_eq_getElem hlt, getElem_idxOf]
    exact .pure a

theorem reads_choice (k : UInt32) (h : Reads (f k) bytes a) :
    Reads (word32 >>= f) (putNat k.toNat ++ bytes) a :=
  (reads_word32 k).bind h

theorem reads_bare (k : UInt32) (h : f k = pure a) :
    Reads (word32 >>= f) (putNat k.toNat) a :=
  (reads_word32 k).bind_nil (h ▸ .pure a)

end Wire

end DeviceCode
