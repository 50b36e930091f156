import DeviceCode.Machine.SlotArea
import DeviceCode.Proofs.SlotLayout

/-!
# Areas and their declared slots

`AreaSlots.Intact`: an area has its size and the tag of every slot that is declared in it. An area is so
from the start (`intact_ofSlots`, `intact_ofStatics`), and a store to a declared slot keeps it so: it
changes the payload of the one slot only (`Intact.store`). A declared slot can be loaded and stored
unless it is a composite one (`Intact.load_none`).
-/

namespace DeviceCode

open SlotPlace

open SlotArea

open List

namespace SlotArea

/-! ## Writing bytes -/

theorem size_write : ∀ (bytes : List UInt8) (area : SlotArea) (offset : Nat),
    (area.write offset bytes).size = area.size
  | [], _, _ => rfl
  | b :: bytes, area, offset => by
    rw [write, size_write bytes, Array.size_setIfInBounds]

theorem getElem?_write_outside : ∀ {bytes : List UInt8} {area : SlotArea} {offset i : Nat},
    i < offset ∨ offset + bytes.length ≤ i → (area.write offset bytes)[i]? = area[i]?
  | [], _, _, _, _ => rfl
  | b :: bytes, area, offset, i, h => by
    rw [length_cons] at h
    rw [write, getElem?_write_outside (by omega), Array.getElem?_setIfInBounds, if_neg (by omega)]

variable {tag : Tag}

theorem length_payload {v : Value} {bytes : List UInt8}
    (h : payload v tag = some bytes) : bytes.length = tag.width := by
  cases tag <;> cases h <;> rfl

theorem payload_eq_none_iff (h : tag.isDeclared = true) (v : Value) :
    payload v tag = none ↔ tag.isComposite = true := by
  cases tag with
  | arrayHeader | string | objectHeader | methodPointer => cases h
  | _ => simp [payload, Tag.isComposite]

theorem valueAt_eq_none_iff (h : tag.isDeclared = true) (area : SlotArea)
    (position : Nat) : area.valueAt position tag = none ↔ tag.isComposite = true := by
  cases tag with
  | arrayHeader | string | objectHeader | methodPointer => cases h
  | _ => simp [valueAt, Tag.isComposite]

theorem slotSize_id (tag : Tag) : slotSize tag.id = tag.slotSize := by
  unfold slotSize
  rw [Tag.ofId?_id]

end SlotArea

/-- The areas differ at most in the payload of the slot. -/
def SlotPlace.Frames (s : SlotPlace) (area area' : SlotArea) : Prop :=
  ∀ i, i ≤ s.offset ∨ s.stop ≤ i → area'[i]? = area[i]?

namespace AreaSlots

/-- The area has its size and the tag of every declared slot. -/
structure Intact (a : AreaSlots) (area : SlotArea) : Prop where
  size : area.size = a.size
  tags : ∀ s ∈ a.places, area[s.offset]? = some s.tag.id

namespace Intact

variable {a : AreaSlots} (htiled : a.Tiled) {area : SlotArea} (h : a.Intact area) {s : SlotPlace}
  (hs : s ∈ a.places)
include htiled h hs

theorem tagAt? : area.tagAt? s.offset = some s.tag := by
  have hstop := htiled.stop_le hs
  unfold SlotArea.tagAt?
  simp only [h.tags s hs, Option.bind_eq_bind, Option.bind_some, Tag.ofId?_id]
  refine if_pos ?_
  rw [h.size]
  unfold stop Tag.slotSize at hstop
  omega

theorem load_none : area.load s.offset = none ↔ s.tag.isComposite = true := by
  unfold load
  rw [h.tagAt? htiled hs]
  exact valueAt_eq_none_iff (htiled.declared s hs) area _

theorem store_none (v : Value) : area.store s.offset v = none ↔ s.tag.isComposite = true := by
  rw [← payload_eq_none_iff (htiled.declared s hs) v]
  unfold store
  rw [h.tagAt? htiled hs]
  cases hp : payload v s.tag <;> simp [hp]

/-- **A store changes the payload of the one slot**, and no tag. -/
theorem store {v : Value} {area' : SlotArea} (hstore : area.store s.offset v = some area') :
    s.Frames area area' ∧ a.Intact area' := by
  unfold SlotArea.store at hstore
  rw [h.tagAt? htiled hs, Option.bind_eq_bind, Option.bind_some] at hstore
  obtain ⟨bytes, hbytes, hwrite⟩ := Option.bind_eq_some_iff.1 hstore
  obtain rfl := Option.some.inj hwrite
  have hlength := length_payload hbytes
  have hframes : s.Frames area (area.write (s.offset + 1) bytes) := by
    intro i hi
    refine getElem?_write_outside ?_
    unfold stop Tag.slotSize at hi
    omega
  refine ⟨hframes, (size_write bytes area _).trans h.size, fun s' hs' => ?_⟩
  rw [hframes s'.offset (htiled.outside hs hs')]
  exact h.tags s' hs'

end Intact

/-! ## New areas -/

/-- The bytes of an empty slot. -/
def emptySlot (tag : Tag) : List UInt8 := tag.id :: List.replicate (tag.slotSize - 1) 0

theorem length_emptySlot (tag : Tag) : (emptySlot tag).length = tag.slotSize := by
  have := tag.slotSize_pos
  simp only [emptySlot, length_cons, length_replicate]
  omega

theorem lengths_eq {places : List SlotPlace} :
    (places.map fun s => (emptySlot s.tag).length) = places.map (·.tag.slotSize) :=
  map_congr_left fun s _ => length_emptySlot s.tag

section
variable {a : AreaSlots} {records : List SlotRecord}
  (hrecords : records.map (·.tag) = a.places.map (·.tag.id))
include hrecords

theorem slots_eq : records.flatMap (fun s => s.tag :: List.replicate (SlotArea.slotSize s.tag - 1) 0) =
    a.places.flatMap fun s => emptySlot s.tag := by
  have hbytes := congrArg (flatMap fun tag => tag :: replicate (slotSize tag - 1) 0)
    hrecords
  simp only [flatMap_map, slotSize_id] at hbytes
  exact hbytes

theorem slotOffsets_eq (htiled : a.Tiled) :
    SlotArea.slotOffsets records = a.places.map (·.offset) := by
  have hsizes := congrArg (map slotSize) hrecords
  simp only [map_map] at hsizes
  rw [htiled.offsets]
  refine congrArg (placements 0) (hsizes.trans (map_congr_left fun s _ => ?_))
  exact slotSize_id s.tag

theorem holds_ofSlots (htiled : a.Tiled) {s : SlotPlace} (hs : s ∈ a.places) :
    Holds (SlotArea.ofSlots records) s.offset (emptySlot s.tag) := by
  unfold ofSlots
  rw [slots_eq hrecords]
  obtain ⟨i, hi⟩ := mem_iff_getElem?.1 hs
  have hstands : Holds (a.places.flatMap fun s => emptySlot s.tag).toArray 0
      (a.places.flatMap fun s => emptySlot s.tag) := ⟨[], [], by simp, rfl⟩
  have hoffset : (placements 0 (a.places.map fun s => (emptySlot s.tag).length))[i]? =
      some s.offset := by
    rw [lengths_eq, ← htiled.offsets, getElem?_map, hi]
    rfl
  exact hstands.placed (s, s.offset)
    (mem_of_getElem? (i := i) (getElem?_zip_eq_some.2 ⟨hi, hoffset⟩))

theorem intact_ofSlots (htiled : a.Tiled) : a.Intact (SlotArea.ofSlots records) := by
  refine ⟨?_, fun s hs => ?_⟩
  · unfold ofSlots
    rw [slots_eq hrecords, htiled.size, size_toArray, length_flatMap_total, lengths_eq]
  · exact (holds_ofSlots hrecords htiled hs).getElem? (i := 0) (by simp [emptySlot])

end

theorem tags_of_set : ∀ {places : List SlotPlace} {area : SlotArea},
    (∀ s ∈ places, s.offset < area.size) →
    (∀ s ∈ places, ∀ s' ∈ places, s.offset = s'.offset → s = s') →
    ∀ s ∈ places, (places.foldl (fun area s => area.setIfInBounds s.offset s.tag.id) area)[s.offset]? =
      some s.tag.id
  | [], _, _, _, s, hs => by simp at hs
  | s₀ :: places, area, hlt, hsame, s, hs => by
    rw [foldl_cons]
    by_cases hlater : s ∈ places
    · refine tags_of_set (fun s' hs' => ?_) (fun s₁ h₁ s₂ h₂ => ?_) s hlater
      · rw [Array.size_setIfInBounds]
        exact hlt s' (mem_cons_of_mem _ hs')
      · exact hsame s₁ (mem_cons_of_mem _ h₁) s₂ (mem_cons_of_mem _ h₂)
    · obtain rfl : s = s₀ := (mem_cons.1 hs).resolve_right hlater
      -- no later slot has this offset, since it would be this one
      have kept : ∀ (rest : List SlotPlace) (area : SlotArea), (∀ s' ∈ rest, s' ∈ places) →
          (rest.foldl (fun area s => area.setIfInBounds s.offset s.tag.id) area)[s.offset]? =
            area[s.offset]? := by
        intro rest
        induction rest with
        | nil => exact fun _ _ => rfl
        | cons s' rest ih =>
          intro area hrest
          rw [foldl_cons, ih _ fun s'' h => hrest s'' (mem_cons_of_mem _ h),
            Array.getElem?_setIfInBounds, if_neg]
          intro heq
          have hmem := hrest s' mem_cons_self
          exact hlater (hsame s' (mem_cons_of_mem _ hmem) s hs heq ▸ hmem)
      rw [kept places _ fun s' hs' => hs', Array.getElem?_setIfInBounds, if_pos rfl,
        if_pos (hlt s hs)]

theorem intact_ofStatics {a : AreaSlots} (htiled : a.Tiled) {record : StaticsRecord}
    (hsize : record.size.toNat = a.size)
    (hentries : record.entries.map (fun e => (e.offset.toNat, e.tag)) =
      a.places.map fun s => (s.offset, s.tag.id)) :
    a.Intact (SlotArea.ofStatics record) := by
  have hfold : ofStatics record =
      a.places.foldl (fun area s => area.setIfInBounds s.offset s.tag.id)
        (Array.replicate a.size 0) := by
    have hsets := congrArg (foldl (fun (area : SlotArea) (e : Nat × UInt8) =>
      area.setIfInBounds e.1 e.2) (Array.replicate a.size 0)) hentries
    rw [foldl_map, foldl_map] at hsets
    rw [ofStatics, hsize]
    exact hsets
  have hstop : ∀ s ∈ a.places, s.offset < a.size := by
    intro s hs
    have hstop := htiled.stop_le hs
    have hpos := s.tag.slotSize_pos
    unfold stop at hstop
    omega
  refine ⟨?_, ?_⟩
  · rw [hfold]
    have sizes : ∀ (places : List SlotPlace) (area : SlotArea),
        (places.foldl (fun area s => area.setIfInBounds s.offset s.tag.id) area).size = area.size := by
      intro places
      induction places with
      | nil => exact fun _ => rfl
      | cons s places ih => exact fun area => (ih _).trans Array.size_setIfInBounds
    rw [sizes, Array.size_replicate]
  · rw [hfold]
    refine tags_of_set (by simpa using hstop) fun s hs s' hs' heq => ?_
    rcases htiled.disjoint hs hs' with hsame | hle | hle
    · exact hsame
    · have := s.tag.slotSize_pos
      unfold stop at hle
      omega
    · have := s'.tag.slotSize_pos
      unfold stop at hle
      omega

end AreaSlots

end DeviceCode
