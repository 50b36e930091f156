import DeviceCode.Proofs.Registry.FieldAccesses

/-!
# Where slots lie

`AreaSlots`: the declared slots of an area, each with its offset and its tag, and the bytes that the
area has. `AreaSlots.Tiled`: they lie end to end and fill the area. The arguments and the local
variables of a method are laid out so (`Registry.FrameSlots.tiled`), and so is the static region
(`Registry.serves_of_link`), where every field in use has its slot: `Registry.static_of_site`, in a
build that accesses no field in both ways, an access to the static region finds its field there.
-/

namespace DeviceCode

open List

variable {p : Program} {t t' : LayoutTable} {f : FieldUse} {uses : List FieldUse}
  {roots : List TypeRef} {c : BuildContext} {start : MethodRef} {index : Nat} {r r' : Registry}
  {linked : Linked} {key : String} {tag : Tag}

namespace Tag

/-- The tags of values that are no scalars and no references. -/
def isComposite : Tag → Bool
  | value | address | boxed => true
  | _ => false

/-- The tags of declared slots. -/
def isDeclared (t : Tag) : Bool := t.isNumeric || t == reference || t.isComposite

end Tag

theorem Storage.isDeclared_ofPrimitive (q : Primitive) :
    (Storage.ofPrimitive q).tag.isDeclared = true := by
  cases q <;> rfl

theorem Storage.isDeclared_of_ofType {t : TypeRef} {s : Storage} (h : Storage.ofType p t = .ok s) :
    s.tag.isDeclared = true := by
  cases t with
  | void => cases h
  | primitive q =>
    cases h
    exact isDeclared_ofPrimitive q
  | named id args =>
    unfold Storage.ofType at h
    dsimp only at h
    split at h
    · cases h
    · split at h <;> cases h
      · exact isDeclared_ofPrimitive _
      · rfl
      · rfl
      · rfl
  | byRef t | pointer t | object | string | array t | param n => cases h; rfl

/-- A declared slot: where its tag byte stands, and its tag. -/
structure SlotPlace where
  offset : Nat
  tag : Tag

/-- Where the slot ends. -/
def SlotPlace.stop (s : SlotPlace) : Nat := s.offset + s.tag.slotSize

/-- The declared slots of an area, and its bytes. -/
structure AreaSlots where
  places : List SlotPlace
  size : Nat

namespace AreaSlots

/-- The slots lie end to end and fill the area. -/
structure Tiled (a : AreaSlots) : Prop where
  offsets : a.places.map (·.offset) = placements 0 (a.places.map (·.tag.slotSize))
  size : a.size = total (a.places.map (·.tag.slotSize))
  declared : ∀ s ∈ a.places, s.tag.isDeclared = true

end AreaSlots

theorem total_append (xs ys : List Nat) : total (xs ++ ys) = total xs + total ys := by
  induction xs with
  | nil => simp [total]
  | cons x xs ih => simp [cons_append, total, ih, Nat.add_assoc]

theorem placements_append (xs ys : List Nat) (start : Nat) :
    placements start (xs ++ ys) = placements start xs ++ placements (start + total xs) ys := by
  induction xs generalizing start with
  | nil => rfl
  | cons x xs ih => simp [cons_append, placements, total, ih, Nat.add_assoc]

namespace AreaSlots.Tiled

theorem empty : AreaSlots.Tiled ⟨[], 0⟩ := ⟨rfl, rfl, by simp⟩

variable {a : AreaSlots} (h : a.Tiled)
include h

theorem snoc (htag : tag.isDeclared = true) :
    AreaSlots.Tiled ⟨a.places ++ [⟨a.size, tag⟩], a.size + tag.slotSize⟩ where
  offsets := by
    simp [map_append, map_cons, map_nil, placements_append, h.offsets, h.size,
      placements, Nat.zero_add]
  size := by
    simp [map_append, map_cons, map_nil, total_append, total, h.size,
      Nat.add_zero]
  declared s hs := by
    rcases mem_append.1 hs with hs | hs
    · exact h.declared s hs
    · rw [mem_singleton] at hs
      rw [hs]
      exact htag

theorem stop_le {s : SlotPlace} (hs : s ∈ a.places) : s.stop ≤ a.size := by
  have hstop := (placed_within h.offsets s hs).2
  rw [h.size]
  unfold SlotPlace.stop
  omega

theorem apart {i j : Nat} {p q : SlotPlace} (hi : a.places[i]? = some p) (hj : a.places[j]? = some q)
    (hne : i ≠ j) : p.stop ≤ q.offset ∨ q.stop ≤ p.offset := by
  have hordered := List.pairwise_iff_getElem.1 (placed_pairwise h.offsets)
  obtain ⟨hi', rfl⟩ := List.getElem?_eq_some_iff.1 hi
  obtain ⟨hj', rfl⟩ := List.getElem?_eq_some_iff.1 hj
  rcases Nat.lt_or_gt_of_ne hne with hlt | hlt
  · exact .inl (hordered i j hi' hj' hlt)
  · exact .inr (hordered j i hj' hi' hlt)

theorem disjoint {s s' : SlotPlace} (hs : s ∈ a.places) (hs' : s' ∈ a.places) :
    s = s' ∨ s.stop ≤ s'.offset ∨ s'.stop ≤ s.offset := by
  obtain ⟨i, hi⟩ := mem_iff_getElem?.1 hs
  obtain ⟨j, hj⟩ := mem_iff_getElem?.1 hs'
  by_cases hne : i = j
  · subst hne
    exact .inl (Option.some.inj (hi.symm.trans hj))
  · exact .inr (h.apart hi hj hne)

theorem outside {s s' : SlotPlace} (hs : s ∈ a.places) (hs' : s' ∈ a.places) :
    s'.offset ≤ s.offset ∨ s.stop ≤ s'.offset := by
  rcases h.disjoint hs hs' with rfl | hle | hle
  · exact .inl (Nat.le_refl _)
  · exact .inr hle
  · exact .inl (Nat.le_trans (Nat.le_add_right _ _) hle)

end AreaSlots.Tiled

/-! ## Arguments and local variables -/

/-- The slots of a list as those of an area. -/
def SlotList.areaSlots (l : SlotList) : AreaSlots where
  places := l.slots.toList.map fun s => ⟨s.offset.toNat, s.tag⟩
  size := l.size

theorem SlotList.tiled_push {l l' : SlotList} {s : Storage} (h : l.push s = .ok l')
    (hs : s.tag.isDeclared = true) (hl : l.areaSlots.Tiled) : l'.areaSlots.Tiled := by
  unfold SlotList.push at h
  split at h
  · cases h
  · rename_i offset hoffset
    split at h
    · cases h
    · cases h
      have hsnoc := hl.snoc hs
      simp only [SlotList.areaSlots, Array.toList_push, map_append, map_cons, map_nil,
        word16?_toNat hoffset]
      exact hsnoc

theorem SlotList.tiled_of_pushes : ∀ {ss : List Storage} {l l' : SlotList},
    ss.foldlM SlotList.push l = .ok l' → (∀ s ∈ ss, s.tag.isDeclared = true) → l.areaSlots.Tiled →
    l'.areaSlots.Tiled
  | [], l, l', h, _, hl => by
    cases h
    exact hl
  | s :: ss, l, l', h, hss, hl => by
    obtain ⟨l₁, hpush, h⟩ := except_bind_ok.1 h
    have hl₁ := tiled_push hpush (hss s mem_cons_self) hl
    exact tiled_of_pushes h (fun s' hs' => hss s' (mem_cons_of_mem _ hs')) hl₁

theorem isDeclared_of_types {types : List TypeRef} {ss : List Storage}
    (h : List.Forall₂ (fun t s => Storage.ofType p t = .ok s) types ss) :
    ∀ s ∈ ss, s.tag.isDeclared = true := by
  intro s hs
  obtain ⟨t, -, ht⟩ := forall₂_mem_right h s hs
  exact Storage.isDeclared_of_ofType ht

namespace Registry

/-- **The arguments and the local variables of a method lie end to end.** -/
theorem FrameSlots.tiled {m : MethodDef} {body : Body} {typeArgs : List TypeRef}
    {args locals : SlotList} {ret : Option Storage}
    (h : FrameSlots p m body typeArgs args locals ret) :
    args.areaSlots.Tiled ∧ locals.areaSlots.Tiled := by
  obtain ⟨ss, hss, hargs⟩ := h.args
  obtain ⟨ls, hls, hlocals⟩ := h.locals
  refine ⟨SlotList.tiled_of_pushes hargs (fun s hs => ?_) .empty,
    SlotList.tiled_of_pushes hlocals (isDeclared_of_types hls) .empty⟩
  rcases mem_append.1 hs with hs | hs
  · split at hs
    · simp at hs
    · rw [mem_singleton] at hs
      rw [hs]
      rfl
  · exact isDeclared_of_types hss s hs

end Registry

/-! ## The static region -/

namespace LayoutTable

/-- The slots of the static region. -/
def staticSlots (t : LayoutTable) : AreaSlots where
  places := t.statics.toList.map fun f => ⟨f.offset.toNat, f.tag⟩
  size := t.staticSize

/-- The static region has a slot for each of the fields, and no other slot. -/
structure Serves (p : Program) (uses : List FieldUse) (t : LayoutTable) : Prop where
  tiled : t.staticSlots.Tiled
  known : ∀ f ∈ uses, ∃ s ∈ t.statics, s.key = f.key
  used : ∀ s ∈ t.statics, ∃ f ∈ uses, f.key = s.key ∧
    ∃ storage, Storage.ofType p f.type = .ok storage ∧ s.tag = storage.tag

theorem staticField?_some {s : StaticField} (h : t.staticField? key = some s) :
    s ∈ t.statics ∧ s.key = key :=
  ⟨Array.mem_of_find?_eq_some h, by simpa using Array.find?_some h⟩

theorem addStatic_ok (h : addStatic p t f = .ok t') :
    (∃ s, t.staticField? f.key = some s ∧ t' = t) ∨ t.staticField? f.key = none ∧
      (f.host = true → isHostType p f.type = true) ∧
      ∃ storage offset, Storage.ofType p f.type = .ok storage ∧
        word16? t.staticSize = some offset ∧ t' = { t with
          statics := t.statics.push
            { key := f.key, name := f.name, offset, tag := storage.tag, type := f.type
              host := f.host }
          staticSize := t.staticSize + storage.tag.slotSize } := by
  unfold addStatic at h
  cases hfound : t.staticField? f.key with
  | some s =>
    simp only [hfound, Option.isSome_some, if_true] at h
    cases h
    exact .inl ⟨s, rfl, rfl⟩
  | none =>
    simp only [hfound, Option.isSome_none, Bool.false_eq_true, if_false] at h
    refine .inr ⟨rfl, ?_⟩
    split at h
    · cases h
    · rename_i hhost
      refine ⟨fun hf => by simpa [hf] using hhost, ?_⟩
      obtain ⟨storage, hstorage, h⟩ := except_bind_ok.1 h
      cases hoffset : word16? t.staticSize with
      | none => simp [hoffset] at h
      | some offset =>
        simp only [hoffset] at h
        rw [except_pure_ok] at h
        exact ⟨storage, offset, hstorage, rfl, h.symm⟩

theorem Serves.addStatic (h : Serves p uses t) (hadd : LayoutTable.addStatic p t f = .ok t') :
    Serves p (uses ++ [f]) t' := by
  obtain ⟨s, hfound, rfl⟩ | ⟨-, -, storage, offset, hstorage, hoffset, rfl⟩ := addStatic_ok hadd
  · obtain ⟨hs, hkey⟩ := staticField?_some hfound
    refine ⟨h.tiled, fun g hg => ?_, fun s' hs' => ?_⟩
    · rcases mem_append.1 hg with hg | hg
      · exact h.known g hg
      · rw [mem_singleton] at hg
        exact ⟨s, hs, hg ▸ hkey⟩
    · obtain ⟨g, hg, hused⟩ := h.used s' hs'
      exact ⟨g, mem_append_left _ hg, hused⟩
  · refine ⟨?_, fun g hg => ?_, fun s' hs' => ?_⟩
    · have hsnoc := h.tiled.snoc (Storage.isDeclared_of_ofType hstorage)
      simp only [staticSlots, Array.toList_push, map_append, map_cons, map_nil,
        word16?_toNat hoffset]
      exact hsnoc
    · rcases mem_append.1 hg with hg | hg
      · obtain ⟨s, hs, hkey⟩ := h.known g hg
        exact ⟨s, Array.mem_push.2 (.inl hs), hkey⟩
      · rw [mem_singleton] at hg
        exact ⟨_, Array.mem_push.2 (.inr rfl), by rw [hg]⟩
    · rcases Array.mem_push.1 hs' with hs' | rfl
      · obtain ⟨g, hg, hused⟩ := h.used s' hs'
        exact ⟨g, mem_append_left _ hg, hused⟩
      · exact ⟨f, mem_append_right _ (mem_singleton_self f), rfl, storage, hstorage, rfl⟩

theorem mem_staticUses : f ∈ staticUses p uses ↔ f ∈ uses ∧ f.inStaticRegion = true := by
  unfold staticUses
  rw [mem_map]
  constructor
  · rintro ⟨e, he, rfl⟩
    rw [mem_sortBy] at he
    obtain ⟨g, hg, rfl⟩ := mem_map.1 he
    exact mem_filter.1 hg
  · intro hf
    exact ⟨_, mem_sortBy.2 (mem_map.2 ⟨f, mem_filter.2 hf, rfl⟩), rfl⟩

theorem grown_of_build {R : LayoutTable → LayoutTable → Prop} (g : Growth R)
    (hc : ∀ type, Keeps R (ensureClass p (nestingBound p) type)) (h : build p uses roots = .ok t) :
    ∃ region own, (staticUses p uses).foldlM (LayoutTable.addStatic p) {} = .ok region ∧
      R { region with ownFields := own } t := by
  obtain ⟨region, hregion, h⟩ := except_bind_ok.1 h
  dsimp only at h
  split at h
  · rename_i t' hrun
    rw [except_pure_ok] at h
    subst h
    refine ⟨region, _, hregion, Keeps.ok ?_ hrun⟩
    exact g.keeps_parallel.forM (g := fun _ => pure ()) fun c _ => Growth.map _ (hc c)
  · cases h

theorem build_ok (h : build p uses roots = .ok t) :
    ∃ region, (staticUses p uses).foldlM (LayoutTable.addStatic p) {} = .ok region ∧
      t.statics = region.statics ∧ t.staticSize = region.staticSize := by
  obtain ⟨region, own, hregion, hgrown⟩ := grown_of_build growth_extends (keeps_ensureClass p _) h
  exact ⟨region, hregion, hgrown.statics, hgrown.staticSize⟩

theorem serves_of_build (h : build p uses roots = .ok t) :
    Serves p (uses.filter (·.inStaticRegion)) t := by
  obtain ⟨region, hregion, hstatics, hsize⟩ := build_ok h
  have hempty : Serves p [] {} := ⟨.empty, by simp, by simp⟩
  have hserves : Serves p (staticUses p uses) region :=
    except_foldlM_ok (fun done t => Serves p done t) (fun _ _ _ _ ht hadd => ht.addStatic hadd)
      hempty hregion
  have hslots : t.staticSlots = region.staticSlots := by
    unfold staticSlots
    rw [hstatics, hsize]
  refine ⟨hslots ▸ hserves.tiled, fun f hf => ?_, fun s hs => ?_⟩
  · rw [hstatics]
    exact hserves.known f (mem_staticUses.2 (mem_filter.1 hf))
  · rw [hstatics] at hs
    obtain ⟨f, hf, hused⟩ := hserves.used s hs
    exact ⟨f, mem_filter.2 (mem_staticUses.1 hf), hused⟩

theorem Serves.undescribed (h : Serves p uses t)
    (hstatics : t'.statics.map Registry.undescribed = t.statics.map Registry.undescribed)
    (hsize : t'.staticSize = t.staticSize) : Serves p uses t' := by
  have hlist : t'.statics.toList.map Registry.undescribed =
      t.statics.toList.map Registry.undescribed := by
    rw [← Array.toList_map, hstatics, Array.toList_map]
  have hslots : t'.staticSlots = t.staticSlots := by
    have hplaces := congrArg (map fun f : StaticField => SlotPlace.mk f.offset.toNat f.tag) hlist
    rw [map_map, map_map] at hplaces
    unfold staticSlots
    rw [hsize]
    exact congrArg (AreaSlots.mk · _) hplaces
  have same : ∀ {t t' : LayoutTable}, t'.statics.toList.map Registry.undescribed =
      t.statics.toList.map Registry.undescribed → ∀ s' ∈ t'.statics, ∃ s ∈ t.statics,
        s.key = s'.key ∧ s.tag = s'.tag := by
    intro t t' heq s' hs'
    have hmem : Registry.undescribed s' ∈ t.statics.toList.map Registry.undescribed :=
      heq ▸ mem_map_of_mem (Array.mem_toList_iff.2 hs')
    obtain ⟨s, hs, hsame⟩ := mem_map.1 hmem
    simp only [Registry.undescribed, StaticField.mk.injEq] at hsame
    exact ⟨s, Array.mem_toList_iff.1 hs, hsame.1, hsame.2.2.2.1⟩
  refine ⟨hslots ▸ h.tiled, fun f hf => ?_, fun s' hs' => ?_⟩
  · obtain ⟨s, hs, hkey⟩ := h.known f hf
    obtain ⟨s', hs', hkey', -⟩ := same hlist.symm s hs
    exact ⟨s', hs', hkey'.trans hkey⟩
  · obtain ⟨s, hs, hkey, htag⟩ := same hlist s' hs'
    obtain ⟨f, hf, hfkey, storage, hstorage, hftag⟩ := h.used s hs
    exact ⟨f, hf, hfkey.trans hkey, storage, hstorage, htag ▸ hftag⟩

end LayoutTable

namespace Registry

/-- The sites access a field of that key in the same way. -/
def regionsAgree : Site → Site → Bool
  | .field key inStaticRegion _ _, .field key' inStaticRegion' _ _ =>
    key != key' || inStaticRegion == inStaticRegion'
  | _, _ => true

/-- Each field is accessed in the static region always, or never. -/
def fieldsApart (r : Registry) : Bool :=
  r.methods.all fun m => r.methods.all fun m' => m.sites.all fun site =>
    m'.sites.all fun site' => regionsAgree site site'

/-- **The static region of a linked build** serves the fields that the sites of its methods access
there. -/
theorem serves_of_link (hentry : compileEntry c start {} = .ok index r)
    (hlink : link c r = .ok linked r') :
    ∃ fields : Array FieldUse,
      LayoutTable.Serves c.program (fields.toList.filter (·.inStaticRegion)) linked.layout ∧
      (∀ m ∈ r'.methods, ∀ key inStaticRegion host tag,
        .field key inStaticRegion host tag ∈ m.sites → ∃ f ∈ fields, f.key = key) ∧
      ∀ f ∈ fields, ∃ m ∈ r'.methods, ∃ site ∈ m.sites, Uses c.program site f := by
  obtain ⟨r₁, roots, t, s, hbind, hbuild, hdescribed, hlayout, -⟩ := described_of_link hlink
  obtain ⟨hsurveyed, haccessed⟩ := surveyed_of_link hentry hbind hlink
  obtain ⟨methods, hblock⟩ := (blocks_blockCallers r₁).rest
  rw [hblock] at hbuild
  refine ⟨r₁.fields, ?_, fun m' hm' key inStaticRegion host tag hsite => ?_, fun f hf => ?_⟩
  · rw [hlayout]
    exact (LayoutTable.serves_of_build hbuild).undescribed hdescribed.statics hdescribed.staticSize
  · obtain ⟨k, hk⟩ := Array.mem_iff_getElem?.1 hm'
    exact (hsurveyed hk).recorded hsite
  · obtain ⟨k, m, j, hm, hj⟩ := haccessed f hf
    obtain ⟨site, hsite, huses⟩ := (hsurveyed hm).site hj
    exact ⟨m, Array.mem_of_getElem? hm, site, Array.mem_of_getElem? hsite, huses⟩

/-- **In a build that accesses no field in both ways**, what the sites access in the static region has
its slot there. -/
theorem static_of_site (hentry : compileEntry c start {} = .ok index r)
    (hlink : link c r = .ok linked r') (hapart : r'.fieldsApart = true) {m : CompiledMethod}
    (hm : m ∈ r'.methods) {host : Bool}
    (hsite : .field key true host tag ∈ m.sites) : ∃ s ∈ linked.layout.statics, s.key = key := by
  obtain ⟨fields, hserves, hrecorded, hused⟩ := serves_of_link hentry hlink
  obtain ⟨f, hf, rfl⟩ := hrecorded m hm key true host tag hsite
  obtain ⟨m', hm', site, hsite', storage, -, rfl⟩ := hused f hf
  have hregion : regionsAgree (.field f.key true host tag)
      (.field f.key f.inStaticRegion f.host storage.tag) = true := by
    unfold fieldsApart at hapart
    simp only [Array.all_eq_true'] at hapart
    exact hapart m hm m' hm' _ hsite _ hsite'
  have hin : f.inStaticRegion = true := by simpa [regionsAgree] using hregion
  exact hserves.known f (mem_filter.2 ⟨Array.mem_toList_iff.2 hf, hin⟩)

end Registry

end DeviceCode
