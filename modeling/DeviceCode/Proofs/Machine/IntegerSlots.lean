import DeviceCode.Proofs.Machine.SlotArea

/-!
# Slots for signed integers

`SlotArea.intAt` and `SlotArea.putInt` read and write the integer of a payload. Where all declared slots
are for signed integers of 32 bits (`AreaSlots.Integers`), a load and a store are just that
(`Integers.load`, `Integers.store`), and different slots are apart (`Integers.apart`).

`AreaSlots.SamePayloads`: two areas agree on the payloads of the declared slots, whatever their tags
are. Writing an integer to the same slot of both keeps that (`SamePayloads.putInt`).
-/

namespace DeviceCode

open SlotArea

variable {area : SlotArea} {payload i : Nat}

/-! ## Integers in areas -/

namespace SlotArea

theorem getElem?_write_inside : ∀ {bytes : List UInt8} {area : SlotArea} {offset i : Nat},
    i < bytes.length → offset + bytes.length ≤ area.size →
    (area.write offset bytes)[offset + i]? = bytes[i]?
  | [], _, _, _, hi, _ => absurd hi (Nat.not_lt_zero _)
  | b :: bytes, area, offset, 0, _, hsize => by
    rw [write, getElem?_write_outside (by omega), Array.getElem?_setIfInBounds, if_pos (by omega),
      if_pos (by omega)]
    rfl
  | b :: bytes, area, offset, i + 1, hi, hsize => by
    rw [List.length_cons] at hi hsize
    have hrest : (write (area.setIfInBounds offset b) (offset + 1) bytes)[offset + 1 + i]? =
        bytes[i]? := getElem?_write_inside (by omega) (by rw [Array.size_setIfInBounds]; omega)
    rw [List.getElem?_cons_succ, ← hrest]
    congr 1
    omega

/-- The integer whose payload starts at the position. -/
@[irreducible] def intAt (area : SlotArea) (payload : Nat) : Int32 := (area.doubleAt payload).toInt32

/-- The area with an integer in the payload that starts at the position. -/
@[irreducible] def putInt (area : SlotArea) (payload : Nat) (x : Int32) : SlotArea :=
  area.write payload (Word.bytes32 x.toUInt32)

@[simp] theorem size_putInt (area : SlotArea) (payload : Nat) (x : Int32) :
    (area.putInt payload x).size = area.size := by
  rw [putInt]
  exact size_write _ area _

theorem getElem?_putInt_outside (h : i < payload ∨ payload + 4 ≤ i) (x : Int32) :
    (area.putInt payload x)[i]? = area[i]? := by
  rw [putInt]
  exact getElem?_write_outside (by rwa [Word.length_bytes32])

theorem getElem?_putInt_inside (hi : i < 4) (hsize : payload + 4 ≤ area.size) (x : Int32) :
    (area.putInt payload x)[payload + i]? = (Word.bytes32 x.toUInt32)[i]? := by
  rw [putInt]
  exact getElem?_write_inside hi hsize

theorem intAt_congr {area' : SlotArea}
    (h : ∀ i, payload ≤ i → i < payload + 4 → area'[i]? = area[i]?) :
    area'.intAt payload = area.intAt payload := by
  have hbyte : ∀ i, payload ≤ i → i < payload + 4 → area'.byteAt i = area.byteAt i := by
    intro i hlow hhigh
    rw [byteAt, byteAt, h i hlow hhigh]
  unfold intAt doubleAt
  rw [hbyte _ (by omega) (by omega), hbyte _ (by omega) (by omega), hbyte _ (by omega) (by omega),
    hbyte _ (by omega) (by omega)]

theorem intAt_putInt (h : payload + 4 ≤ area.size) (x : Int32) :
    (area.putInt payload x).intAt payload = x := by
  have hbyte : ∀ i < 4, (area.putInt payload x).byteAt (payload + i) =
      (Word.bytes32 x.toUInt32)[i]?.getD 0 := by
    intro i hi
    rw [byteAt, getElem?_putInt_inside hi h]
  have h₀ : (area.putInt payload x).byteAt payload = _ := hbyte 0 (by omega)
  rw [intAt, doubleAt, h₀, hbyte 1 (by omega), hbyte 2 (by omega), hbyte 3 (by omega)]
  exact (congrArg UInt32.toInt32 (Word.ofBytes32_bytes32 x.toUInt32)).trans
    (Int32.toInt32_toUInt32 x)

theorem intAt_putInt_ne {other : Nat} (h : other + 4 ≤ payload ∨ payload + 4 ≤ other) (x : Int32) :
    (area.putInt payload x).intAt other = area.intAt other :=
  intAt_congr fun i hlow hhigh => getElem?_putInt_outside (by omega) x

end SlotArea

/-! ## Areas of integers -/

namespace AreaSlots

variable {a : AreaSlots}

/-- The slots lie end to end, and all are for signed integers of 32 bits. -/
structure Integers (a : AreaSlots) : Prop extends Tiled a where
  tags : ∀ s ∈ a.places, s.tag = .i32

section
variable (h : a.Integers)
include h

theorem Integers.stop_eq {s : SlotPlace} (hs : s ∈ a.places) : s.stop = s.offset + 5 := by
  rw [SlotPlace.stop, h.tags s hs]
  rfl

theorem Integers.apart {j : Nat} {s s' : SlotPlace} (hi : a.places[i]? = some s)
    (hj : a.places[j]? = some s') (hne : i ≠ j) :
    s.offset + 5 ≤ s'.offset ∨ s'.offset + 5 ≤ s.offset := by
  rw [← h.stop_eq (List.mem_of_getElem? hi), ← h.stop_eq (List.mem_of_getElem? hj)]
  exact h.toTiled.apart hi hj hne

variable (hintact : a.Intact area) {s : SlotPlace} (hs : s ∈ a.places)
include hintact hs

theorem Integers.payload_le : s.offset + 5 ≤ area.size := by
  rw [hintact.size, ← h.stop_eq hs]
  exact h.stop_le hs

theorem Integers.load : area.load s.offset = some (.i4 (area.intAt (s.offset + 1))) := by
  unfold SlotArea.load
  rw [hintact.tagAt? h.toTiled hs, h.tags s hs, intAt]
  rfl

theorem Integers.store (v : Value) :
    area.store s.offset v = some (area.putInt (s.offset + 1) v.toInt) := by
  unfold SlotArea.store
  rw [hintact.tagAt? h.toTiled hs, h.tags s hs, putInt]
  rfl

theorem Integers.intact_putInt (x : Int32) : a.Intact (area.putInt (s.offset + 1) x) :=
  (hintact.store h.toTiled hs (h.store hintact hs (.i4 x))).2

end

/-! ## Equal payloads -/

/-- The areas have the same payloads in the declared slots. -/
def SamePayloads (a : AreaSlots) (area area' : SlotArea) : Prop :=
  ∀ s ∈ a.places, ∀ i, s.offset < i → i < s.stop → area'[i]? = area[i]?

theorem SamePayloads.refl (a : AreaSlots) (area : SlotArea) : a.SamePayloads area area :=
  fun _ _ _ _ _ => rfl

section
variable (h : a.Integers) {area' : SlotArea} (hsame : a.SamePayloads area area') {s : SlotPlace}
  (hs : s ∈ a.places)
include h hsame hs

theorem SamePayloads.intAt : area'.intAt (s.offset + 1) = area.intAt (s.offset + 1) := by
  have hstop := h.stop_eq hs
  exact intAt_congr fun i hlow hhigh => hsame s hs i (by omega) (by omega)

theorem SamePayloads.payload_le (hsize : s.offset + 5 ≤ area.size) : s.offset + 5 ≤ area'.size := by
  have hstop := h.stop_eq hs
  have hlast := (hsame s hs (s.offset + 4) (by omega) (by omega)).trans
    (Array.getElem?_eq_getElem (show s.offset + 4 < area.size by omega))
  have := (Array.getElem?_eq_some_iff.1 hlast).1
  omega

/-- **An integer that is written to both areas** keeps the payloads equal. -/
theorem SamePayloads.putInt (hsize : s.offset + 5 ≤ area.size) (x : Int32) :
    a.SamePayloads (area.putInt (s.offset + 1) x) (area'.putInt (s.offset + 1) x) := by
  have hsize' := hsame.payload_le h hs hsize
  intro s' hs' i hlow hhigh
  by_cases hinside : s.offset < i ∧ i < s.offset + 5
  · obtain ⟨k, rfl⟩ : ∃ k, i = s.offset + 1 + k := ⟨i - (s.offset + 1), by omega⟩
    rw [getElem?_putInt_inside (by omega) (by omega),
      getElem?_putInt_inside (by omega) (by omega)]
  · rw [getElem?_putInt_outside (by omega), getElem?_putInt_outside (by omega)]
    exact hsame s' hs' i hlow hhigh

end

end AreaSlots

end DeviceCode
