import DeviceCode.Proofs.SlotLayout
import Mathlib.Data.List.Nodup
import Mathlib.Data.List.Pairwise

/-!
# Class layouts

`LayoutTable.LaidOut`: every class of a table has a key of its own, its fields lie end to end, and where
it extends a base it starts with the fields of the base, which has a smaller id. A class that is being
laid out is not in the table yet (`LayoutTable.Sound`), so that no class is laid out twice, whatever is
laid out in between. Laying out keeps all that, also where it fails (`LayoutTable.advances_ensureClass`).

Main statement: `LayoutTable.classes_laid_out`, for every table that building, laying out and describing
lead to (`LayoutTable.Reached`).
-/

namespace DeviceCode

open List

variable {i : Nat} {c : ClassLayout} {key : String} {t : LayoutTable} {e e' : Extent}
  {f : FieldSlot} {uses : List FieldUse} {roots : List TypeRef}

/-- The slots of an instance of the class. -/
def ClassLayout.areaSlots (c : ClassLayout) : AreaSlots where
  places := c.fields.toList.map fun f => ⟨f.offset.toNat, f.tag⟩
  size := c.size.toNat

namespace LayoutTable

/-- The class extends one that was laid out before it, and starts with its fields. -/
def ExtendsBase (t : LayoutTable) (i : Nat) (c : ClassLayout) (key : String) : Prop :=
  ∃ j b, t.classId? key = some j ∧ j < i ∧ t.classes[j]? = some b ∧
    b.fields.toList <+: c.fields.toList ∧ b.size ≤ c.size

/-- What holds of the classes of a table. -/
structure LaidOut (t : LayoutTable) : Prop where
  keys : (t.classes.toList.map (·.key)).Nodup
  tiled : ∀ c ∈ t.classes, c.areaSlots.Tiled
  bases : ∀ (i : Nat) c key, t.classes[i]? = some c → c.base = some key → t.ExtendsBase i c key

/-- What holds of a table while classes are being laid out. -/
structure Sound (t : LayoutTable) : Prop extends LaidOut t where
  waiting : t.inProgress.Nodup
  unlaid : ∀ c ∈ t.classes, c.key ∉ t.inProgress

/-- Classes may have been added, none of those in progress among them. -/
structure Advances (t t' : LayoutTable) : Prop where
  classes : t.classes.toList <+: t'.classes.toList
  inProgress : ∀ key ∈ t.inProgress, key ∈ t'.inProgress
  sound : t.Sound → t'.Sound

theorem growth_advances : Growth Advances where
  refl _ := ⟨prefix_rfl, fun _ h => h, fun h => h⟩
  trans h₁ h₂ := ⟨h₁.classes.trans h₂.classes, fun key h => h₂.inProgress key (h₁.inProgress key h),
    fun h => h₂.sound (h₁.sound h)⟩

/-! ## Finding classes -/

section
variable {t' : LayoutTable}

theorem LaidOut.classId?_eq_some (h : t.LaidOut) :
    t.classId? key = some i ↔ ∃ c, t.classes[i]? = some c ∧ c.key = key := by
  unfold classId?
  rw [Array.findIdx?_eq_some_iff_getElem]
  constructor
  · rintro ⟨hi, hkey, -⟩
    exact ⟨_, Array.getElem?_eq_getElem hi, eq_of_beq hkey⟩
  · rintro ⟨c, hc, rfl⟩
    obtain ⟨hi, rfl⟩ := Array.getElem?_eq_some_iff.1 hc
    refine ⟨hi, beq_self_eq_true _, fun j hj hsame => ?_⟩
    have hne := pairwise_iff_getElem.1 h.keys j i (by simpa using Nat.lt_trans hj hi)
      (by simpa using hi) hj
    simp only [getElem_map, Array.getElem_toList] at hne
    exact hne (eq_of_beq hsame)

theorem LaidOut.class?_key (h : t.LaidOut) (hc : c ∈ t.classes) : t.class? c.key = some c := by
  unfold class?
  cases hfound : t.classes.find? (·.key == c.key) with
  | none => simpa using Array.find?_eq_none.1 hfound c hc
  | some c' =>
    have hkey : c'.key = c.key := by simpa using Array.find?_some hfound
    rw [inj_on_of_nodup_map h.keys (Array.mem_toList_iff.2 (Array.mem_of_find?_eq_some hfound))
      (Array.mem_toList_iff.2 hc) hkey]

end

/-! ## One class -/

/-- The slots of the fields that have been placed so far. -/
def Extent.areaSlots (e : Extent) : AreaSlots where
  places := e.fields.toList.map fun f => ⟨f.offset.toNat, f.tag⟩
  size := e.size

/-- The fields lie end to end, and start with those of a class of the table. -/
structure Extent.Fits (t : LayoutTable) (e : Extent) : Prop where
  tiled : e.areaSlots.Tiled
  base : ∀ key, e.base = some key → ∃ (j : Nat) (b : ClassLayout), t.classId? key = some j ∧
    t.classes[j]? = some b ∧ b.fields.toList <+: e.fields.toList ∧ b.size.toNat ≤ e.size

theorem Extent.Fits.empty (t : LayoutTable) : Extent.Fits t {} := ⟨.empty, fun key h => by cases h⟩

theorem Extent.Fits.mono {t' : LayoutTable} (h : e.Fits t)
    (ht : t.classes.toList <+: t'.classes.toList) : e.Fits t' where
  tiled := h.tiled
  base key hkey := by
    obtain ⟨j, b, hj, hb, hrest⟩ := h.base key hkey
    exact ⟨j, b, classId?_mono ht hj, getElem?_mono ht hb, hrest⟩

section
variable {p : Program} {ensure : TypeRef → LayoutM (Option Nat) } {t' : LayoutTable} {type : TypeRef}
  {size : UInt16}

theorem fits_inherited {base : Option TypeRef} (h : inherited ensure base t = .ok e t')
    (ht : t'.LaidOut) : e.Fits t' := by
  unfold inherited at h
  split at h
  · obtain ⟨rfl, -⟩ := state_pure_ok.1 h
    exact .empty _
  · obtain ⟨id, t₁, -, h⟩ := state_bind_ok.1 h
    split at h
    · obtain ⟨rfl, -⟩ := state_pure_ok.1 h
      exact .empty _
    · rename_i id
      rw [state_get_bind] at h
      cases hc : t₁.classes[id]? with
      | none =>
        simp only [hc] at h
        obtain ⟨rfl, -⟩ := state_pure_ok.1 h
        exact .empty _
      | some c =>
        simp only [hc] at h
        obtain ⟨rfl, rfl⟩ := state_pure_ok.1 h
        refine ⟨ht.tiled c (Array.mem_of_getElem? hc), fun key hkey => ?_⟩
        cases hkey
        exact ⟨id, c, ht.classId?_eq_some.2 ⟨c, hc, rfl⟩, hc, prefix_rfl, Nat.le_refl _⟩

theorem place_ok {f : FieldUse} (h : place p ensure e f t = .ok e' t') :
    ∃ storage offset, Storage.ofType p f.type = .ok storage ∧ word16? e.size = some offset ∧
      e' = { e with
        fields := e.fields.push
          { key := f.key, name := f.name, offset, tag := storage.tag
            valueClass := storage.valueClass }
        size := e.size + storage.tag.slotSize } := by
  obtain ⟨storage, hstorage, h⟩ := state_ofExcept_bind_ok.1 h
  cases hoffset : word16? e.size with
  | none =>
    simp only [hoffset] at h
    split at h
    · obtain ⟨_, s, -, h⟩ := state_bind_ok.1 h
      simp at h
    · simp at h
  | some offset =>
    simp only [hoffset] at h
    refine ⟨storage, offset, hstorage, rfl, ?_⟩
    split at h
    · obtain ⟨_, s, -, h⟩ := state_bind_ok.1 h
      exact (state_pure_ok.1 h).1.symm
    · exact (state_pure_ok.1 h).1.symm

theorem fits_place (he : ∀ type, Keeps Extends (ensure type)) {f : FieldUse}
    (h : place p ensure e f t = .ok e' t') (hfits : e.Fits t) : e'.Fits t' := by
  have hfits := hfits.mono ((keeps_place growth_extends he e f).ok h).classes
  obtain ⟨storage, offset, hstorage, hoffset, rfl⟩ := place_ok h
  constructor
  · have hsnoc := hfits.tiled.snoc (Storage.isDeclared_of_ofType hstorage)
    simp only [Extent.areaSlots, Array.toList_push, map_append, map_cons, map_nil,
      word16?_toNat hoffset]
    exact hsnoc
  · intro key hkey
    obtain ⟨j, b, hj, hb, hfields, hsize⟩ := hfits.base key hkey
    refine ⟨j, b, hj, hb, ?_, Nat.le_trans hsize (Nat.le_add_right _ _)⟩
    rw [Array.toList_push]
    exact hfields.trans (prefix_append _ _)

theorem Sound.push (ht : t.Sound) (hkey : key ∈ t.inProgress)
    (hfits : e.Fits t) (hsize : word16? e.size = some size) :
    Sound { t with
      classes := t.classes.push { key, type, base := e.base, size, fields := e.fields }
      inProgress := t.inProgress.erase key } := by
  have hnew : ∀ c ∈ t.classes, c.key ≠ key := fun c hc h => ht.unlaid c hc (h ▸ hkey)
  have hgrown : t.classes.toList <+:
      (t.classes.push { key, type, base := e.base, size, fields := e.fields }).toList := by
    rw [Array.toList_push]
    exact prefix_append _ _
  constructor
  · constructor
    · simp only [Array.toList_push, map_append, map_cons, map_nil]
      refine nodup_append.2 ⟨ht.keys, nodup_singleton _, fun a ha b hb => ?_⟩
      obtain ⟨c, hc, rfl⟩ := mem_map.1 ha
      rw [mem_singleton.1 hb]
      exact hnew c (Array.mem_toList_iff.1 hc)
    · intro c hc
      rcases Array.mem_push.1 hc with hc | rfl
      · exact ht.tiled c hc
      · rw [ClassLayout.areaSlots, word16?_toNat hsize]
        exact hfits.tiled
    · intro i c base hc hbase
      rcases Nat.lt_or_ge i t.classes.size with hi | hi
      · rw [Array.getElem?_push_lt hi] at hc
        obtain ⟨j, b, hj, hji, hb, hrest⟩ :=
          ht.bases i c base (by rw [Array.getElem?_eq_getElem hi, hc]) hbase
        exact ⟨j, b, classId?_mono hgrown hj, hji, getElem?_mono hgrown hb, hrest⟩
      · obtain ⟨rfl, rfl⟩ : i = t.classes.size ∧
            c = { key, type, base := e.base, size, fields := e.fields } := by
          rw [Array.getElem?_push] at hc
          split at hc
          · cases hc
            exact ⟨‹_›, rfl⟩
          · rw [Array.getElem?_eq_none hi] at hc
            cases hc
        obtain ⟨j, b, hj, hb, hfields, hle⟩ := hfits.base base hbase
        refine ⟨j, b, classId?_mono hgrown hj, (Array.getElem?_eq_some_iff.1 hb).1,
          getElem?_mono hgrown hb, hfields, ?_⟩
        rw [UInt16.le_iff_toNat_le, word16?_toNat hsize]
        exact hle
  · exact ht.waiting.erase key
  · intro c hc hmem
    rcases Array.mem_push.1 hc with hc | rfl
    · exact ht.unlaid c hc (mem_of_mem_erase hmem)
    · exact ht.waiting.not_mem_erase hmem

theorem advances_mark (hid : t.classId? key = none) (hkey : key ∉ t.inProgress) :
    Advances t { t with inProgress := key :: t.inProgress } where
  classes := prefix_rfl
  inProgress k hk := mem_cons_of_mem _ hk
  sound ht := {
    toLaidOut := ⟨ht.keys, ht.tiled, ht.bases⟩
    waiting := nodup_cons.2 ⟨hkey, ht.waiting⟩
    unlaid := fun c hc hmem => by
      rcases mem_cons.1 hmem with hsame | hmem
      · simpa [hsame] using Array.findIdx?_eq_none_iff.1 hid c hc
      · exact ht.unlaid c hc hmem }

theorem advances_finish (h : Advances t t')
    (hkey : key ∉ t.inProgress) (hopen : key ∈ t'.inProgress) (hfits : t.Sound → e.Fits t')
    (hsize : word16? e.size = some size) :
    Advances t { t' with
      classes := t'.classes.push { key, type, base := e.base, size, fields := e.fields }
      inProgress := t'.inProgress.erase key } where
  classes := by
    rw [Array.toList_push]
    exact h.classes.trans (prefix_append _ _)
  inProgress k hk := (mem_erase_of_ne (by rintro rfl; exact hkey hk)).2 (h.inProgress k hk)
  sound ht := (h.sound ht).push hopen (hfits ht) hsize

/-- **Laying out a class** keeps the table sound, whether it ends well or not. -/
theorem advances_layOut (he : ∀ type, Keeps Advances (ensure type))
    (hx : ∀ type, Keeps Extends (ensure type)) (type : TypeRef) :
    Keeps Advances (layOut p ensure type) := by
  have g := growth_advances
  unfold layOut
  split
  · refine g.bind_of g.get fun t t' _ ht => ?_
    obtain ⟨rfl, rfl⟩ := state_get_ok.1 ht
    split
    · exact g.refl t
    · exact g.refl t
    · rename_i id args _ _ d hid _
      rw [stateAfter_bind_ok (x := get) rfl]
      split
      · exact g.refl t
      rename_i hclosed
      have hkey : p.fullName (.named id args) ∉ t.inProgress := fun hmem => by simp [hmem] at hclosed
      have hmark := advances_mark hid hkey
      have hopen : p.fullName (.named id args) ∈
        { t with inProgress := p.fullName (.named id args) :: t.inProgress }.inProgress :=
          mem_cons_self
      rw [stateAfter_bind_ok (x := modify _) rfl]
      generalize { t with inProgress := p.fullName (.named id args) :: t.inProgress } = t₁
        at hmark hopen ⊢
      -- the base comes first
      have hstart := keeps_inherited g he (d.base.map (·.substitute args)) t₁
      cases hbase : inherited ensure (d.base.map (·.substitute args)) t₁ with
      | error e s =>
        rw [stateAfter_bind_error hbase]
        exact g.trans hmark (stateAfter_error hbase ▸ hstart)
      | ok start t₂ =>
        rw [stateAfter_ok hbase] at hstart
        rw [stateAfter_bind_ok hbase, stateAfter_bind_ok (x := get) rfl]
        -- then its own fields, one after the other
        have hplaced := g.foldlM (keeps_place (p := p) g he)
          (t₂.ownUses (.named id args) d args (p.fullName (.named id args))) start t₂
        cases hown : (t₂.ownUses (.named id args) d args (p.fullName (.named id args))).foldlM
            (place p ensure) start t₂ with
        | error e s =>
          rw [stateAfter_bind_error hown]
          exact g.trans hmark (g.trans hstart (stateAfter_error hown ▸ hplaced))
        | ok extent t₃ =>
          rw [stateAfter_ok hown] at hplaced
          rw [stateAfter_bind_ok hown]
          have hall := g.trans hmark (g.trans hstart hplaced)
          cases hsize : word16? extent.size with
          | none => exact hall
          | some size =>
            refine advances_finish hall hkey
              (hplaced.inProgress _ (hstart.inProgress _ hopen)) (fun ht => ?_) hsize
            have ht₂ := hstart.sound (hmark.sound ht)
            exact state_foldlM_ok (fun _ e s => e.Fits s) (fun _ _ _ _ _ _ hfits hstep =>
              fits_place hx hstep hfits) (fits_inherited hbase ht₂.toLaidOut) hown
  · exact g.pure _

end

theorem advances_ensureClass (p : Program) :
    ∀ (fuel : Nat) (type : TypeRef), Keeps Advances (ensureClass p fuel type)
  | 0, _ => growth_advances.throw _
  | n + 1, type => advances_layOut (advances_ensureClass p n) (keeps_ensureClass p n) type

end LayoutTable

/-! ## Descriptors -/

namespace TypeTables

section
variable {p : Program} {R : LayoutTable → LayoutTable → Prop} (g : Growth R)
include g

theorem growth_layout : Growth fun s s' : TypeTables => R s.layout s'.layout :=
  ⟨fun s => g.refl s.layout, g.trans⟩

omit g in
theorem keeps_layout_onLayout {α : Type} {x : LayoutM α} (h : Keeps R x) :
    Keeps (fun s s' => R s.layout s'.layout) (onLayout x) := by
  intro s
  rw [stateAfter_onLayout]
  exact h s.layout

theorem keeps_layout_ensureWithin
    (hc : ∀ type, Keeps R (LayoutTable.ensureClass p (LayoutTable.nestingBound p) type)) (n : Nat)
    (type : TypeRef) : Keeps (fun s s' => R s.layout s'.layout) (ensureWithin p n type) := by
  have g := growth_layout g
  refine parallel_ensureWithin g.keeps_parallel trivial (fun type => keeps_layout_onLayout (hc _))
    (fun key s => ?_) (fun id d => Growth.modify fun s => g.refl s) n type
  unfold reserve
  rw [stateAfter_bind_ok (x := get) rfl]
  dsimp only
  split
  · exact g.refl s
  · exact g.refl s

end

end TypeTables

namespace LayoutTable

/-! ## Tables that can be reached -/

/-- The tables that a build leads to, with classes laid out and types described afterwards in any
order, whether that ends well or fails. -/
inductive Reached (p : Program) : LayoutTable → Prop
  | build {uses : List FieldUse} {roots : List TypeRef} {t : LayoutTable}
      (built : LayoutTable.build p uses roots = .ok t) : Reached p t
  | layOut {t : LayoutTable} (reached : Reached p t) (fuel : Nat) (type : TypeRef) :
      Reached p (stateAfter (ensureClass p fuel type) t)
  | describe {t : LayoutTable} (reached : Reached p t) (descriptors : DescriptorTable)
      (type : TypeRef) :
      Reached p (stateAfter (TypeTables.ensure p type) { layout := t, descriptors }).layout
  | setDescriptor {t : LayoutTable} (reached : Reached p t) (index : Nat) (id : UInt16) :
      Reached p (t.setStaticDescriptor index id)

variable {p : Program}

theorem classes_of_addStatics (h : uses.foldlM (LayoutTable.addStatic p) {} = .ok t) :
    t.classes = #[] ∧ t.inProgress = [] := by
  refine except_foldlM_ok (fun _ t => t.classes = #[] ∧ t.inProgress = [])
    (fun _ t f t' ht hadd => ?_) ⟨rfl, rfl⟩ h
  obtain ⟨s, -, rfl⟩ | ⟨-, -, storage, offset, -, -, rfl⟩ := addStatic_ok hadd
  · exact ht
  · exact ht

theorem sound_of_build (h : build p uses roots = .ok t) : t.Sound := by
  obtain ⟨region, own, hregion, hgrown⟩ := grown_of_build growth_advances
    (advances_ensureClass p _) h
  obtain ⟨hclasses, hwaiting⟩ := classes_of_addStatics hregion
  refine hgrown.sound ⟨⟨?_, ?_, ?_⟩, ?_, ?_⟩
  · simp [hclasses]
  · simp [hclasses]
  · simp [hclasses]
  · simp [hwaiting]
  · simp [hclasses]

/-- **Every table that can be reached is sound.** -/
theorem Reached.sound (h : Reached p t) : t.Sound := by
  induction h with
  | build built => exact sound_of_build built
  | @layOut t _ fuel type ih => exact (advances_ensureClass p fuel type t).sound ih
  | @describe t _ descriptors type ih =>
    exact (TypeTables.keeps_layout_ensureWithin growth_advances (advances_ensureClass p _) _ type
      { layout := t, descriptors }).sound ih
  | setDescriptor _ index id ih => exact ⟨⟨ih.keys, ih.tiled, ih.bases⟩, ih.waiting, ih.unlaid⟩

/-! ## Offsets of fields -/

/-- The fields that a class adds to those of its base. -/
def addedFields (t : LayoutTable) (c : ClassLayout) : List FieldSlot :=
  match c.base.bind t.class? with
  | some b => c.fields.toList.drop b.fields.size
  | none => c.fields.toList

/-- The keys of all fields that classes add. -/
def fieldKeys (t : LayoutTable) : List String :=
  t.classes.toList.flatMap fun c => (t.addedFields c).map (·.key)

section

theorem LaidOut.added (h : t.LaidOut) : ∀ {i : Nat} {c : ClassLayout},
    t.classes[i]? = some c → f ∈ c.fields.toList → ∃ c' ∈ t.classes, f ∈ t.addedFields c' := by
  intro i
  induction i using Nat.strongRecOn with
  | ind i ih =>
    intro c hc hf
    cases hbase : c.base with
    | none =>
      refine ⟨c, Array.mem_of_getElem? hc, ?_⟩
      unfold addedFields
      rw [hbase]
      exact hf
    | some key =>
      obtain ⟨j, b, hj, hji, hb, ⟨rest, hfields⟩, -⟩ := h.bases i c key hc hbase
      rw [← hfields] at hf
      rcases mem_append.1 hf with hf | hf
      · exact ih j hji hb hf
      · refine ⟨c, Array.mem_of_getElem? hc, ?_⟩
        obtain ⟨b', hb', rfl⟩ := h.classId?_eq_some.1 hj
        rw [hb] at hb'
        cases hb'
        unfold addedFields
        rw [hbase, Option.bind_some, h.class?_key (Array.mem_of_getElem? hb), ← hfields]
        show f ∈ (b.fields.toList ++ rest).drop b.fields.size
        rw [drop_left' Array.length_toList]
        exact hf

theorem addedField_eq (hkeys : t.fieldKeys.Nodup) {c' : ClassLayout} (hc : c ∈ t.classes)
    (hc' : c' ∈ t.classes) {f' : FieldSlot} (hf : f ∈ t.addedFields c) (hf' : f' ∈ t.addedFields c')
    (hkey : f.key = f'.key) : f = f' := by
  obtain ⟨hown, hapart⟩ := nodup_flatMap.1 hkeys
  by_cases hsame : c = c'
  · subst hsame
    exact inj_on_of_nodup_map (hown c (Array.mem_toList_iff.2 hc)) hf hf' hkey
  · have : Std.Symm (Function.onFun List.Disjoint fun c => (t.addedFields c).map (·.key)) :=
      ⟨fun _ _ h _ ha hb => h hb ha⟩
    have hdisjoint := hapart.forall (Array.mem_toList_iff.2 hc) (Array.mem_toList_iff.2 hc') hsame
    exact absurd (hkey ▸ mem_map_of_mem hf') (hdisjoint (mem_map_of_mem hf))

/-- **A field has its offset in every class** that has it, unless it lives in the static region. -/
theorem LaidOut.fieldOffset?_eq (h : t.LaidOut) (hkeys : t.fieldKeys.Nodup) (hc : c ∈ t.classes)
    (hf : f ∈ c.fields) (hstatic : t.staticField? f.key = none) :
    t.fieldOffset? f.key = some f.offset := by
  unfold fieldOffset?
  rw [hstatic]
  cases hfound : t.classes.findSome? (·.field? f.key) with
  | none =>
    have hno := Array.findSome?_eq_none_iff.1 hfound c hc
    simpa using Array.find?_eq_none.1 hno f hf
  | some g =>
    obtain ⟨c', hc', hg⟩ := Array.exists_of_findSome?_eq_some hfound
    have hgkey : g.key = f.key := by simpa using Array.find?_some hg
    obtain ⟨i, hi⟩ := Array.mem_iff_getElem?.1 hc
    obtain ⟨j, hj⟩ := Array.mem_iff_getElem?.1 hc'
    obtain ⟨c₁, hc₁, hf₁⟩ := h.added hi (Array.mem_toList_iff.2 hf)
    obtain ⟨c₂, hc₂, hg₂⟩ := h.added hj (Array.mem_toList_iff.2 (Array.mem_of_find?_eq_some hg))
    rw [addedField_eq hkeys hc₂ hc₁ hg₂ hf₁ hgkey]
    rfl

end

/-- **Class layouts hold together** in every table that can be reached: keys and ids determine each
other, the fields of a class lie end to end, a class starts with the fields of its base, which has a
smaller id, and a field has the same offset in every class. -/
theorem classes_laid_out {p : Program} {t : LayoutTable} (h : Reached p t) :
    (∀ key i, t.classId? key = some i ↔ ∃ c, t.classes[i]? = some c ∧ c.key = key) ∧
    (∀ c ∈ t.classes, c.areaSlots.Tiled ∧ c.areaSlots.size ≤ 65535) ∧
    (∀ (i : Nat) c key, t.classes[i]? = some c → c.base = some key → t.ExtendsBase i c key) ∧
    (t.fieldKeys.Nodup → ∀ c ∈ t.classes, ∀ f ∈ c.fields, t.staticField? f.key = none →
      t.fieldOffset? f.key = some f.offset) := by
  have hlaid := h.sound.toLaidOut
  refine ⟨fun key i => hlaid.classId?_eq_some, fun c hc => ⟨hlaid.tiled c hc, ?_⟩, hlaid.bases,
    fun hkeys c hc f hf => hlaid.fieldOffset?_eq hkeys hc hf⟩
  exact Nat.le_of_lt_succ c.size.toNat_lt

/-- Classes that extend each other, in a line and in a circle, a structure that embeds itself, and one
that cannot be laid out. -/
def kinship : Program where
  types := #[
    { name := "Parent", fields := [{ name := "x", type := .primitive .i32 },
      { name := "y", type := .primitive .u8 }] },
    { name := "Child", base := some (.named ⟨0⟩ []), fields := [{ name := "z", type := .named ⟨2⟩ [] }] },
    { name := "Pair", kind := .structType, fields := [{ name := "a", type := .primitive .i16 },
      { name := "again", type := .named ⟨2⟩ [] }] },
    { name := "Left", base := some (.named ⟨4⟩ []), fields := [{ name := "l", type := .string }] },
    { name := "Right", base := some (.named ⟨3⟩ []), fields := [{ name := "r", type := .object }] },
    { name := "Broken", kind := .structType, fields := [{ name := "b", type := .primitive .i32 },
      { name := "lost", type := .named ⟨9⟩ [] }] },
    { name := "Holder", kind := .structType, fields := [{ name := "held", type := .named ⟨5⟩ [] }] }]

def kinshipUses : List FieldUse :=
  [⟨"Child::z", "z", .named ⟨1⟩ [], .named ⟨2⟩ [], false, false⟩,
    ⟨"Parent::y", "y", .named ⟨0⟩ [], .primitive .u8, false, false⟩,
    ⟨"Left::l", "l", .named ⟨3⟩ [], .string, false, false⟩,
    ⟨"Right::r", "r", .named ⟨4⟩ [], .object, false, false⟩,
    ⟨"Parent::x", "x", .named ⟨0⟩ [], .primitive .i32, false, false⟩]

/-- The layout after an attempt on the structure that cannot be laid out, and another one to describe a
structure that embeds it. -/
def kinshipTable (t : LayoutTable) : LayoutTable :=
  (stateAfter (TypeTables.ensure kinship (.named ⟨6⟩ []))
    { layout := stateAfter (ensureClass kinship 10 (.named ⟨5⟩ [])) t }).layout

theorem kinship_laid_out : ∃ t₀, build kinship kinshipUses [.named ⟨3⟩ []] = .ok t₀ ∧
    ∃ t, t = kinshipTable t₀ ∧ Reached kinship t ∧ t.fieldKeys.Nodup ∧ t.inProgress = ["Broken"] ∧
      t.classes.map (·.key) = #["Right", "Left", "Parent", "Pair", "Child", "Holder"] ∧
      (∀ key i, t.classId? key = some i ↔ ∃ c, t.classes[i]? = some c ∧ c.key = key) ∧
      (∀ c ∈ t.classes, c.areaSlots.Tiled ∧ c.areaSlots.size ≤ 65535) ∧
      (∀ (i : Nat) c key, t.classes[i]? = some c → c.base = some key → t.ExtendsBase i c key) ∧
      ∀ c ∈ t.classes, ∀ f ∈ c.fields, t.staticField? f.key = none →
        t.fieldOffset? f.key = some f.offset := by
  have h : ((build kinship kinshipUses [.named ⟨3⟩ []]).toOption.any fun t₀ =>
      let t := kinshipTable t₀
      t.fieldKeys.Nodup && t.inProgress = ["Broken"] &&
        t.classes.map (·.key) = #["Right", "Left", "Parent", "Pair", "Child", "Holder"]) = true := by
    decide +kernel
  cases hbuild : build kinship kinshipUses [.named ⟨3⟩ []] with
  | error e => simp [hbuild, Except.toOption] at h
  | ok t₀ =>
    simp only [hbuild, Except.toOption, Option.any_some, Bool.and_eq_true, decide_eq_true_eq] at h
    obtain ⟨⟨hkeys, hopen⟩, hclasses⟩ := h
    have hreached : Reached kinship (kinshipTable t₀) := ((Reached.build hbuild).layOut _ _).describe _ _
    obtain ⟨hindex, htiled, hbases, hoffsets⟩ := classes_laid_out hreached
    exact ⟨t₀, rfl, _, rfl, hreached, hkeys, hopen, hclasses, hindex, htiled, hbases, hoffsets hkeys⟩

end LayoutTable

end DeviceCode
