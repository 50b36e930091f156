import DeviceCode.Proofs.CUnit.Frame
import DeviceCode.Proofs.Machine.Perform

/-!
# Variables on both sides

A variable of a method has a place in C and a home in the machine (`CompiledMethod.Locates`). In a
method on signed integers (`CompiledMethod.Integers`) different variables have no byte in common
(`Locates.apart`).

`CompiledMethod.Represents`: a C frame has the variables of a machine frame, and the static region of
the machine. Reading a variable gives the same integer on both sides (`Represents.get`), and writing it
on both sides keeps the relation (`Represents.put`).
-/

namespace DeviceCode

open CFrame

open SlotList

open LayoutTable

open List

/-! ## Homes -/

/-- Where the machine keeps a variable: an area, and where the payload starts in it. -/
inductive Home where
  | frame (area : Area) (payload : Nat)
  | static (payload : Nat)

namespace Home

/-- The integer that the machine has there. -/
def read (f : Frame) (statics : SlotArea) : Home → Int32
  | frame area payload => (f.area area).intAt payload
  | static payload => statics.intAt payload

/-- The frame after an integer was stored there. -/
def putFrame (f : Frame) (x : Int32) : Home → Frame
  | frame .arguments payload => { f with args := f.args.putInt payload x }
  | frame .locals payload => { f with locals := f.locals.putInt payload x }
  | static _ => f

theorem method_putFrame (home : Home) (f : Frame) (x : Int32) :
    (home.putFrame f x).method = f.method := by
  rcases home with ⟨_ | _, _⟩ | _ <;> rfl

/-- The static region after an integer was stored there. -/
def putStatics (statics : SlotArea) (x : Int32) : Home → SlotArea
  | frame _ _ => statics
  | static payload => statics.putInt payload x

end Home

namespace CompiledMethod

/-- The variable has the place in C and the home in the machine. -/
inductive Locates (m : CompiledMethod) (layout : LayoutTable) : CVar → CPlace → Home → Prop
  | argument {n : UInt16} {slot : Slot} (there : m.args.get? n = some slot) :
    Locates m layout (.argument n) (.argument .i4 (slot.offset + 1))
      (.frame .arguments (slot.offset.toNat + 1))
  | localVar {n : UInt16} {slot : Slot} (there : m.locals.get? n = some slot) :
    Locates m layout (.localVar n) (.localVar n) (.frame .locals (slot.offset.toNat + 1))
  | static {key : String} {field : StaticField} (there : layout.staticField? key = some field) :
    Locates m layout (.static key) (.static .i4 (field.offset + 1))
      (.static (field.offset.toNat + 1))

/-- All variables of the method are signed integers of 32 bits, and the areas that C takes offsets in
are small enough for them. -/
structure Integers (m : CompiledMethod) (layout : LayoutTable) : Prop where
  args : m.args.areaSlots.Integers
  locals : m.locals.areaSlots.Integers
  statics : layout.staticSlots.Integers
  argsSmall : m.args.size < 65535
  staticsSmall : layout.staticSize < 65535

end CompiledMethod

/-! ## Slots by index and by key -/

theorem SlotList.getElem?_places {l : SlotList} {n : UInt16} {slot : Slot}
    (h : l.get? n = some slot) :
    l.areaSlots.places[n.toNat]? = some ⟨slot.offset.toNat, slot.tag⟩ := by
  rw [areaSlots, getElem?_map, Array.getElem?_toList]
  exact congrArg (Option.map _) h

theorem LayoutTable.getElem?_places {t : LayoutTable} {key : String} {field : StaticField}
    (h : t.staticField? key = some field) : ∃ i : Nat, t.statics[i]? = some field ∧
      t.staticSlots.places[i]? = some ⟨field.offset.toNat, field.tag⟩ := by
  obtain ⟨i, hi⟩ := Array.mem_iff_getElem?.1 (staticField?_some h).1
  refine ⟨i, hi, ?_⟩
  rw [staticSlots, getElem?_map, Array.getElem?_toList, hi]
  rfl

/-! ## Payloads -/

section
variable {a : AreaSlots} {type type' : CType} {tag tag' : Tag} {offset offset' : UInt16} {i j : Nat}

theorem CType.size_of_ofTag? (h : CType.ofTag? tag = some type) : tag.slotSize = 1 + type.size := by
  cases tag <;> cases h <;> rfl

section
variable (h : a.Tiled) (hsmall : a.size < 65536)
include h hsmall

theorem AreaSlots.Tiled.toNat_payload (hmem : ⟨offset.toNat, tag⟩ ∈ a.places) :
    (offset + 1).toNat = offset.toNat + 1 := by
  have hstop := h.stop_le hmem
  unfold SlotPlace.stop Tag.slotSize at hstop
  exact Nat.mod_eq_of_lt (by
    show offset.toNat + 1 < 65536
    dsimp only at hstop
    omega)

theorem AreaSlots.Tiled.payloads_apart
    (hi : a.places[i]? = some ⟨offset.toNat, tag⟩) (hj : a.places[j]? = some ⟨offset'.toNat, tag'⟩)
    (hne : i ≠ j) (htype : CType.ofTag? tag = some type) (htype' : CType.ofTag? tag' = some type') :
    (offset + 1).toNat + type.size ≤ (offset' + 1).toNat ∨
      (offset' + 1).toNat + type'.size ≤ (offset + 1).toNat := by
  have hslots := h.apart hi hj hne
  unfold SlotPlace.stop at hslots
  dsimp only at hslots
  rw [CType.size_of_ofTag? htype, CType.size_of_ofTag? htype'] at hslots
  rw [h.toNat_payload hsmall (mem_of_getElem? hi), h.toNat_payload hsmall (mem_of_getElem? hj)]
  omega

end

section
variable (h : a.Integers) (hsmall : a.size < 65535) (hi : a.places[i]? = some ⟨offset.toNat, tag⟩)
include h hsmall hi

theorem AreaSlots.Integers.toNat_payload : (offset + 1).toNat = offset.toNat + 1 :=
  h.toTiled.toNat_payload (Nat.lt_succ_of_lt hsmall) (mem_of_getElem? hi)

theorem AreaSlots.Integers.payloads_apart (hj : a.places[j]? = some ⟨offset'.toNat, tag'⟩)
    (hne : i ≠ j) : (offset + 1).toNat + 4 ≤ (offset' + 1).toNat ∨
      (offset' + 1).toNat + 4 ≤ (offset + 1).toNat := by
  have htype : ∀ {i : Nat} {offset : Nat} {tag : Tag}, a.places[i]? = some ⟨offset, tag⟩ →
      CType.ofTag? tag = some .i4 := fun hi => congrArg CType.ofTag? (h.tags _ (mem_of_getElem? hi))
  exact h.toTiled.payloads_apart (Nat.lt_succ_of_lt hsmall) hi hj hne (htype hi) (htype hj)

end

end

namespace CompiledMethod

variable {m : CompiledMethod} {layout : LayoutTable} {v v' : CVar} {place place' : CPlace}
  {home home' : Home}

/-- **Different variables have no byte in common.** -/
theorem Locates.apart (hm : m.Integers layout) (h : m.Locates layout v place home)
    (h' : m.Locates layout v' place' home') (hne : v ≠ v') : place.Disjoint place' := by
  cases h with
  | argument there =>
    cases h' with
    | argument there' =>
      refine hm.args.payloads_apart hm.argsSmall (getElem?_places there) (getElem?_places there') ?_
      exact fun heq => hne (by rw [UInt16.toNat_inj.1 heq])
    | localVar _ | static _ => exact CPlace.noConfusion
  | localVar there =>
    cases h' with
    | localVar _ => exact fun heq => hne (by cases heq; rfl)
    | argument _ | static _ => exact CPlace.noConfusion
  | static there =>
    cases h' with
    | static there' =>
      obtain ⟨i, hfield, hi⟩ := getElem?_places there
      obtain ⟨j, hfield', hj⟩ := getElem?_places there'
      refine hm.statics.payloads_apart hm.staticsSmall hi hj fun heq => hne ?_
      rw [heq, hfield', Option.some.injEq] at hfield
      rw [← (staticField?_some there).2, ← (staticField?_some there').2, hfield]
    | argument _ | localVar _ => exact CPlace.noConfusion

/-- The C frame has the variables of the machine frame, and its static region. -/
structure Represents (m : CompiledMethod) (layout : LayoutTable) (f : Frame) (statics : SlotArea)
    (cf : CFrame) : Prop where
  intactArgs : m.args.areaSlots.Intact f.args
  intactLocals : m.locals.areaSlots.Intact f.locals
  intactStatics : layout.staticSlots.Intact statics
  sameArgs : m.args.areaSlots.SamePayloads f.args cf.args
  sameStatics : layout.staticSlots.SamePayloads statics cf.statics
  vars : ∀ n slot, m.locals.get? n = some slot →
    cf.get (.localVar n) = .ok (.int (f.locals.intAt (slot.offset.toNat + 1)))

section
variable {f : Frame} {statics : SlotArea} {cf : CFrame} (hm : m.Integers layout)
  (h : m.Represents layout f statics cf) (hv : m.Locates layout v place home)
include hm h hv

theorem Represents.fits : cf.Fits place := by
  cases hv with
  | argument there =>
    have hi := getElem?_places there
    have hmem := mem_of_getElem? hi
    have hle := h.sameArgs.payload_le hm.args hmem (hm.args.payload_le h.intactArgs hmem)
    refine ⟨rfl, ?_⟩
    rw [hm.args.toNat_payload hm.argsSmall hi]
    exact hle
  | localVar there => exact trivial
  | static there =>
    obtain ⟨i, -, hi⟩ := getElem?_places there
    have hmem := mem_of_getElem? hi
    have hle := h.sameStatics.payload_le hm.statics hmem (hm.statics.payload_le h.intactStatics hmem)
    refine ⟨rfl, ?_⟩
    rw [hm.statics.toNat_payload hm.staticsSmall hi]
    exact hle

/-- **A variable is the same integer on both sides.** -/
theorem Represents.get : cf.get place = .ok (.int (home.read f statics)) := by
  have hfits := h.fits hm hv
  cases hv with
  | argument there =>
    have hi := getElem?_places there
    have hsame := h.sameArgs.intAt hm.args (mem_of_getElem? hi)
    rw [get_argument hfits, hm.args.toNat_payload hm.argsSmall hi, hsame]
    rfl
  | localVar there => exact h.vars _ _ there
  | static there =>
    obtain ⟨i, -, hi⟩ := getElem?_places there
    have hsame := h.sameStatics.intAt hm.statics (mem_of_getElem? hi)
    rw [get_static hfits, hm.statics.toNat_payload hm.staticsSmall hi, hsame]
    rfl

/-- **A variable that is written on both sides** is the same again, and so are all others. -/
theorem Represents.put (x : Int32) :
    m.Represents layout (home.putFrame f x) (home.putStatics statics x) (cf.put place x) := by
  have hfits := h.fits hm hv
  have others : ∀ {n : UInt16} {slot : Slot}, m.locals.get? n = some slot → .localVar n ≠ v →
      (cf.put place x).get (.localVar n) =
        .ok (.int (f.locals.intAt (slot.offset.toNat + 1))) := fun hn hne => by
    have hplace : m.Locates layout (.localVar _) _ _ := .localVar hn
    rw [get_put_ne hfits (hv.apart hm hplace (Ne.symm hne)) x]
    exact h.vars _ _ hn
  cases hv with
  | argument there =>
    have hi := getElem?_places there
    have hmem := mem_of_getElem? hi
    refine ⟨hm.args.intact_putInt h.intactArgs hmem x, h.intactLocals, h.intactStatics, ?_, ?_,
      fun n slot hn => others hn (by simp)⟩
    · rw [put_argument_args, hm.args.toNat_payload hm.argsSmall hi]
      exact h.sameArgs.putInt hm.args hmem (hm.args.payload_le h.intactArgs hmem) x
    · exact h.sameStatics
  | @localVar n' slot' there =>
    have hi := getElem?_places there
    have hmem := mem_of_getElem? hi
    refine ⟨h.intactArgs, hm.locals.intact_putInt h.intactLocals hmem x, h.intactStatics, ?_, ?_,
      fun n slot hn => ?_⟩
    · exact h.sameArgs
    · exact h.sameStatics
    by_cases heq : n = n'
    · subst heq
      obtain rfl := Option.some.inj (there.symm.trans hn)
      have hput := SlotArea.intAt_putInt (hm.locals.payload_le h.intactLocals hmem) x
      rw [get_put hfits]
      exact congrArg (Except.ok ∘ CNumber.int) hput.symm
    · have hapart := hm.locals.apart hi (getElem?_places hn)
        fun hnat => heq (UInt16.toNat_inj.1 hnat).symm
      rw [others hn (by simpa using heq)]
      dsimp only at hapart
      exact congrArg (Except.ok ∘ CNumber.int) (SlotArea.intAt_putInt_ne (by omega) x).symm
  | static there =>
    obtain ⟨i, -, hi⟩ := getElem?_places there
    have hmem := mem_of_getElem? hi
    refine ⟨h.intactArgs, h.intactLocals, hm.statics.intact_putInt h.intactStatics hmem x, ?_, ?_,
      fun n slot hn => others hn (by simp)⟩
    · exact h.sameArgs
    rw [put_static_statics, hm.statics.toNat_payload hm.staticsSmall hi]
    exact h.sameStatics.putInt hm.statics hmem (hm.statics.payload_le h.intactStatics hmem) x

end

end CompiledMethod

end DeviceCode
