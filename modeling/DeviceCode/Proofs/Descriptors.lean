import DeviceCode.Proofs.ClassLayout

/-!
# Descriptors stand for their types

`Describes p s key type d`: in the tables `s`, the descriptor `d` is that of the type, part by part; the
ids of its parts are those of their keys. An id is reserved before its descriptor is built, so while a
type is being described the table has entries that are not filled in. What is built behind a reserved id
may refer to it by its key alone, and keys are never taken back: `Interns p s s'` says that every entry
from `s` on is filled in at `s'` with a descriptor of a type of its key. Main statement:
`descriptors_canonical`, for every sequence of calls that end well.
-/

namespace DeviceCode

open LayoutTable

open DescriptorTable

open List

variable {key : DescriptorKey} {type : TypeRef} {d : Descriptor} {args : List TypeRef}
  {s' : TypeTables} {id : UInt16} {c : Nat} {p : Program} {s : TypeTables}

/-- The fields of every structure have different names. -/
def Program.DistinctNames (p : Program) : Prop :=
  ∀ {id d}, p.typeDef? id = some d → d.kind = .structType → (d.fields.map (·.name)).Nodup

/-! ## Keys -/

/-- The type that a descriptor is about: by-refs and pointers give way to what they point to and
enumerations to their integers, also inside arrays. -/
def TypeRef.described (p : Program) : TypeRef → TypeRef
  | .byRef t | .pointer t => t.described p
  | .array t => .array (t.described p)
  | .named id args =>
    match p.typeDef? id with
    | some { kind := .enumType q, .. } => .primitive q
    | _ => .named id args
  | t => t

theorem DescriptorKey.ofType_described (p : Program) :
    ∀ t : TypeRef, ofType p (t.described p) = ofType p t
  | .byRef t | .pointer t => ofType_described p t
  | .array t => by
    rw [TypeRef.described, ofType, ofType, ofType_described p t]
  | .named id args => by
    rw [TypeRef.described]
    split
    · rename_i heq
      rw [ofType, ofType, heq]
    · rfl
  | .string | .object | .param _ | .primitive _ | .void => rfl

theorem DescriptorKey.ofType_struct {name : String} : ∀ {t : TypeRef},
    ofType p t = .ok (.struct name) → ∃ id args d, t.pointee = .named id args ∧
      p.typeDef? id = some d ∧ d.kind = .structType ∧ name = p.fullName (.named id args)
  | .byRef u, h | .pointer u, h => ofType_struct (t := u) h
  | .named id args, h => by
    unfold ofType at h
    split at h
    · rename_i heq
      cases h
      exact ⟨id, args, _, rfl, heq, rfl, rfl⟩
    · cases h
    · cases h
  | .array t, h => by
    rw [ofType, except_map_ok] at h
    obtain ⟨_, -, heq⟩ := h
    cases heq
  | .string, h | .object, h | .param _, h | .primitive _, h | .void, h => by cases h

theorem DescriptorKey.ofType_array : ∀ {t : TypeRef},
    ofType p t = .ok (.array key) →
      ∃ element, t.pointee = .array element ∧ ofType p element = .ok key
  | .byRef u, h | .pointer u, h => ofType_array (t := u) h
  | .array u, h => by
    rw [ofType, except_map_ok] at h
    obtain ⟨_, hkey, heq⟩ := h
    cases heq
    exact ⟨u, rfl, hkey⟩
  | .named id args, h => by
    unfold ofType at h
    split at h <;> cases h
  | .string, h | .object, h | .param _, h | .primitive _, h | .void, h => by cases h

namespace LayoutTable

theorem classId?_of_layOut {ensure : TypeRef → LayoutM (Option Nat)}
    {t t' : LayoutTable} (h : layOut p ensure type t = .ok (some c) t') (ht : t'.LaidOut) :
    t'.classId? (p.fullName type) = some c := by
  unfold layOut at h
  cases type with
  | named id args =>
    dsimp only at h
    rw [state_get_bind] at h
    cases hid : t.classId? (p.fullName (.named id args)) with
    | some known =>
      simp only [hid] at h
      obtain ⟨heq, rfl⟩ := state_pure_ok.1 h
      rw [hid, heq]
    | none =>
      cases hd : p.typeDef? id with
      | none =>
        simp only [hid, hd] at h
        cases h
      | some d =>
        simp only [hid, hd] at h
        obtain ⟨-, h⟩ | ⟨-, h⟩ := state_ite_ok.1 h
        · obtain ⟨heq, -⟩ := state_pure_ok.1 h
          cases heq
        obtain ⟨_, t₁, -, h⟩ := state_bind_ok.1 h
        obtain ⟨start, t₂, -, h⟩ := state_bind_ok.1 h
        obtain ⟨_, t₃, -, h⟩ := state_bind_ok.1 h
        obtain ⟨extent, t₄, -, h⟩ := state_bind_ok.1 h
        cases hsize : word16? extent.size with
        | none =>
          simp only [hsize] at h
          cases h
        | some size =>
          simp only [hsize] at h
          rw [state_get_bind] at h
          obtain ⟨_, t₆, hset, h⟩ := state_bind_ok.1 h
          rw [state_set_ok] at hset
          obtain ⟨heq, rfl⟩ := state_pure_ok.1 h
          cases heq
          exact ht.classId?_eq_some.2 ⟨_, by rw [← hset]; exact Array.getElem?_push_size, rfl⟩
  | _ =>
    obtain ⟨heq, -⟩ := state_pure_ok.1 h
    cases heq

end LayoutTable

namespace TypeTables

/-! ## What a descriptor stands for -/

/-- The id is that of the type's key. -/
def HasId (p : Program) (s : TypeTables) (type : TypeRef) (id : UInt16) : Prop :=
  ∃ key, DescriptorKey.ofType p type = .ok key ∧ s.descriptors.idOf? key = some id ∧
    id.toNat < s.descriptors.size

/-- A member of a structure is a field of its class layout, with the descriptor of the type that the
structure declares for it. -/
structure MemberOf (p : Program) (s : TypeTables) (d : TypeDef) (args : List TypeRef)
    (slot : FieldSlot) (m : StructMember) : Prop where
  name : m.name = slot.name
  offset : m.offset = slot.offset
  declared : ∃ f ∈ d.fields, f.name = slot.name
  component : ∀ f ∈ d.fields, f.name = slot.name → HasId p s (f.type.substitute args) m.descriptor

/-- The descriptor is that of a type with the key. -/
inductive Describes (p : Program) (s : TypeTables) (type : TypeRef) :
    DescriptorKey → Descriptor → Prop where
  | primitive (tag : Tag) : Describes p s type (.primitive tag) (.primitive tag)
  | string : Describes p s type .string .string
  | reference (name : String) : Describes p s type (.reference name) .reference
  | array {element : TypeRef} {key : DescriptorKey} {id : UInt16} :
    type.pointee = .array element → DescriptorKey.ofType p element = .ok key → HasId p s element id →
    Describes p s type (.array key) (.array id)
  | struct {id : TypeId} {args : List TypeRef} {d : TypeDef} {c : Nat} {l : ClassLayout}
      {members : List StructMember} :
    type.pointee = .named id args → p.typeDef? id = some d → d.kind = .structType →
    s.layout.classId? (p.fullName (.named id args)) = some c → s.layout.classes[c]? = some l →
    List.Forall₂ (MemberOf p s d args) l.fields.toList members →
    Describes p s type (.struct (p.fullName (.named id args))) (.struct c.toUInt16 members)

section
variable {p : Program} {s : TypeTables} (hkeys : s.descriptors.keys <+: s'.descriptors.keys)
include hkeys

theorem HasId.mono (h : HasId p s type id) : HasId p s' type id := by
  obtain ⟨key, hkey, hid, -⟩ := h
  have hid' := idOf?_mono hkeys hid
  exact ⟨key, hkey, hid', lt_size_of_idOf? hid'⟩

theorem MemberOf.mono {d : TypeDef} {slot : FieldSlot} {m : StructMember}
    (h : MemberOf p s d args slot m) : MemberOf p s' d args slot m :=
  ⟨h.name, h.offset, h.declared, fun f hf hname => (h.component f hf hname).mono hkeys⟩

theorem Describes.mono (hclasses : s.layout.classes.toList <+: s'.layout.classes.toList)
    (h : Describes p s type key d) : Describes p s' type key d := by
  cases h with
  | primitive tag => exact .primitive tag
  | string => exact .string
  | reference name => exact .reference name
  | array hpointee hkey hid => exact .array hpointee hkey (hid.mono hkeys)
  | struct hpointee hd hkind hc hl hmembers =>
    exact .struct hpointee hd hkind (classId?_mono hclasses hc)
      (getElem?_mono hclasses hl) (hmembers.imp fun _ _ => .mono hkeys)

end

/-! ## Describing a type -/

/-- The entry has a descriptor of a type with its key, and its position is the id of the key. -/
def Interned (p : Program) (s : TypeTables) (i : Nat) (e : DescriptorEntry) : Prop :=
  s.descriptors.idOf? e.key = some i.toUInt16 ∧ ∃ type d, e.descriptor = some d ∧
    DescriptorKey.ofType p type = .ok e.key ∧ Describes p s type e.key d

/-- The entries that were there are as they were, and each new one is filled in with a descriptor of a
type of its key. -/
structure Interns (p : Program) (s s' : TypeTables) : Prop extends Completes s s' where
  advances : LayoutTable.Advances s.layout s'.layout
  keys : s.descriptors.keys <+: s'.descriptors.keys
  bounded : s.descriptors.size ≤ 65536 → s'.descriptors.size ≤ 65536
  interned : s.layout.Sound → ∀ i e, s.descriptors.size ≤ i → s'.descriptors.entries[i]? = some e →
    Interned p s' i e

theorem Interned.mono {i : Nat} {e : DescriptorEntry}
    (hkeys : s.descriptors.keys <+: s'.descriptors.keys)
    (hclasses : s.layout.classes.toList <+: s'.layout.classes.toList) (h : Interned p s i e) :
    Interned p s' i e := by
  obtain ⟨hid, type, d, hd, hkey, hdescribes⟩ := h
  exact ⟨idOf?_mono hkeys hid, type, d, hd, hkey,
    hdescribes.mono hkeys hclasses⟩

theorem growth_interns (p : Program) : Growth (Interns p) where
  refl s := {
    growth_completes.refl s with
    advances := growth_advances.refl _
    keys := prefix_rfl
    bounded := id
    interned := fun _ i e hi he => by
      rw [Array.getElem?_eq_none hi] at he
      cases he }
  trans {s t u} h₁ h₂ := {
    growth_completes.trans h₁.toCompletes h₂.toCompletes with
    advances := growth_advances.trans h₁.advances h₂.advances
    keys := h₁.keys.trans h₂.keys
    bounded := fun h => h₂.bounded (h₁.bounded h)
    interned := fun hs i e hi he => by
      by_cases ht : i < t.descriptors.entries.size
      · exact (h₁.interned hs i e hi (h₂.old i ht ▸ he)).mono h₂.keys h₂.advances.classes
      · exact h₂.interned (h₁.advances.sound hs) i e (Nat.le_of_not_lt ht) he }

section
variable {p : Program} {s s₂ : TypeTables} (hnew : s.descriptors.idOf? key = none)
  (h : Interns p (s.reserved key) s₂)
include hnew h

/-- What is built behind a reserved id is interned once the reservation is filled in. -/
theorem interns_filled (hsize : s.descriptors.size < 65536)
    (hkey : DescriptorKey.ofType p type = .ok key) (hd : s.layout.Sound → Describes p s₂ type key d) :
    Interns p s (s₂.filled s.descriptors.size d) := by
  have hsame : s₂.descriptors.keys <+: (s₂.filled s.descriptors.size d).descriptors.keys :=
    ⟨[], by rw [append_nil, keys_filled]⟩
  have hkeys := h.keys
  rw [keys_reserved] at hkeys
  have hreserved : (s.reserved key).descriptors.size = s.descriptors.size + 1 := by
    rw [← length_keys, keys_reserved, length_append,
      length_keys, length_singleton]
  refine {
    completes_fill h.toCompletes with
    advances := h.advances
    keys := (completes_fill h.toCompletes).keys
    bounded := fun _ => ?_
    interned := fun hs i e hi he => ?_ }
  · rw [← length_keys, keys_filled, length_keys]
    exact h.bounded (by omega)
  · simp only [filled, Array.getElem?_modify] at he
    split at he
    · -- the reservation itself
      rename_i heq
      obtain ⟨e', he', rfl⟩ := Option.map_eq_some_iff.1 he
      have hat : s₂.descriptors.keys[i]? = some key := by
        obtain ⟨rest, hrest⟩ := hkeys
        rw [← hrest, ← heq, ← length_keys]
        simp
      rw [DescriptorTable.keys, getElem?_map, Array.getElem?_toList, he'] at hat
      cases hat
      exact ⟨heq ▸ idOf?_filled hnew h.toCompletes d, type, d, rfl, hkey, (hd hs).mono hsame prefix_rfl⟩
    · -- what was described for its sake
      exact (h.interned hs i e (by omega) he).mono hsame prefix_rfl

end

theorem keeps_interns_onLayout {α : Type} {x : LayoutM α}
    (hx : Keeps LayoutTable.Extends x) (ha : Keeps LayoutTable.Advances x) :
    Keeps (Interns p) (onLayout x) := by
  have moved : ∀ {s : TypeTables} {t : LayoutTable}, LayoutTable.Extends s.layout t →
      LayoutTable.Advances s.layout t → Interns p s { s with layout := t } := by
    intro s t hextends hadvances
    refine { (growth_interns p).refl s with
      layout := hextends, advances := hadvances, interned := fun _ i e hi he => ?_ }
    rw [Array.getElem?_eq_none hi] at he
    cases he
  intro s
  rw [stateAfter_onLayout]
  exact moved (hx s.layout) (ha s.layout)

theorem classId?_of_ensureClass
    (h : ensureClass p type s = .ok (some c) s') (hs : s'.layout.LaidOut) :
    s'.layout.classId? (p.fullName type) = some c := by
  obtain ⟨t, hr, rfl⟩ := onLayout_ok.1 h
  exact classId?_of_layOut hr hs

section
variable {p : Program} (hnames : p.DistinctNames) {ensure : TypeRef → TypeTablesM UInt16}
  (he : ∀ {type s id s'}, ensure type s = .ok id s' → Interns p s s' ∧ HasId p s' type id)
include hnames he

theorem members_ok {id : TypeId} {d : TypeDef} (hd : p.typeDef? id = some d)
    (hkind : d.kind = .structType) {fields : List FieldSlot}
    {ms : List StructMember} (h : members ensure (some d) args fields s = .ok ms s') :
    Interns p s s' ∧ List.Forall₂ (MemberOf p s' d args) fields ms := by
  refine (growth_interns p).mapM_ok (P := fun s slot m => MemberOf p s d args slot m)
    (fun _ _ _ _ hgrown => .mono hgrown.keys) (fun slot s m s' hslot => ?_) h
  cases hf : d.fields.find? (·.name == slot.name) with
  | none =>
    simp only [Option.bind_some, hf] at hslot
    cases hslot
  | some f =>
    simp only [Option.bind_some, hf] at hslot
    obtain ⟨id, s₁, hid, hslot⟩ := state_bind_ok.1 hslot
    obtain ⟨rfl, rfl⟩ := state_pure_ok.1 hslot
    obtain ⟨hinterns, hhas⟩ := he hid
    have hmem := mem_of_find?_eq_some hf
    have hname : f.name = slot.name := by simpa using find?_some hf
    refine ⟨hinterns, rfl, rfl, ⟨f, hmem, hname⟩, fun g hg hgname => ?_⟩
    rw [inj_on_of_nodup_map (hnames hd hkind) hg hmem (hgname.trans hname.symm)]
    exact hhas

/-- **The descriptor that is built** is that of the type. -/
theorem build_ok (hkey : DescriptorKey.ofType p type = .ok key)
    (h : build p ensure type key s = .ok d s') :
    Interns p s s' ∧ (s.layout.Sound → Describes p s' type key d) := by
  have g := growth_interns p
  cases key with
  | primitive tag =>
    obtain ⟨rfl, rfl⟩ := state_pure_ok.1 h
    exact ⟨g.refl s, fun _ => .primitive tag⟩
  | string =>
    obtain ⟨rfl, rfl⟩ := state_pure_ok.1 h
    exact ⟨g.refl s, fun _ => .string⟩
  | reference name =>
    obtain ⟨rfl, rfl⟩ := state_pure_ok.1 h
    exact ⟨g.refl s, fun _ => .reference name⟩
  | array key =>
    obtain ⟨element, helement, helementKey⟩ := DescriptorKey.ofType_array hkey
    simp only [build, helement] at h
    obtain ⟨id, s₁, hid, h⟩ := state_bind_ok.1 h
    obtain ⟨rfl, rfl⟩ := state_pure_ok.1 h
    obtain ⟨hinterns, hhas⟩ := he hid
    exact ⟨hinterns, fun _ => .array helement helementKey hhas⟩
  | struct name =>
    obtain ⟨id, args, d', hnamed, hd', hkind, rfl⟩ := DescriptorKey.ofType_struct hkey
    obtain ⟨c, s₁, hc, h⟩ := state_bind_ok.1 h
    have hlaid := (keeps_interns_onLayout (p := p) (keeps_ensureClass p _ _)
      (advances_ensureClass p _ _)).ok hc
    cases c with
    | none => simp at h
    | some c =>
      simp only [state_get_bind, hnamed, hd'] at h
      obtain ⟨ms, s₃, hms, h⟩ := state_bind_ok.1 h
      obtain ⟨rfl, rfl⟩ := state_pure_ok.1 h
      obtain ⟨hinterns, hmembers⟩ := members_ok hnames he hd' hkind hms
      refine ⟨g.trans hlaid hinterns, fun hs => ?_⟩
      have hlaidOut := (hlaid.advances.sound hs).toLaidOut
      rw [hnamed] at hc
      have hid := classId?_of_ensureClass hc hlaidOut
      obtain ⟨l, hl, -⟩ := hlaidOut.classId?_eq_some.1 hid
      simp only [hl] at hmembers
      exact .struct hnamed hd' hkind (classId?_mono hinterns.advances.classes hid)
        (getElem?_mono hinterns.advances.classes hl) hmembers

end

/-- **The id of a type** is that of its key, and all that was described for its sake is interned. -/
theorem ensureWithin_spec (hnames : p.DistinctNames) : ∀ (n : Nat) {type : TypeRef}
    {s s' : TypeTables} {id : UInt16}, ensureWithin p n type s = .ok id s' →
      Interns p s s' ∧ HasId p s' type id
  | 0, _, _, _, _, h => absurd h (by simp [ensureWithin])
  | n + 1, type, s, s', id, h => by
    obtain ⟨key, hkey, hid⟩ := idOf?_of_ensureWithin h
    refine ⟨?_, key, hkey, hid, lt_size_of_idOf? hid⟩
    obtain ⟨key, hkey, ⟨-, rfl⟩ | ⟨hnew, hsize, d, s₂, hbuild, rfl⟩⟩ := ensureWithin_ok h
    · exact (growth_interns p).refl s
    · obtain ⟨hinterns, hdescribes⟩ := build_ok hnames (ensureWithin_spec hnames n) hkey hbuild
      have hlt : s.descriptors.size < 65536 := Nat.lt_of_le_of_lt (Nat.le_of_eq hsize.symm) id.toNat_lt
      exact interns_filled hnew hinterns hlt hkey hdescribes

end TypeTables

/-! ## What a class layout holds -/

/-- The slot is that of a field with that name, in the storage of its type. -/
def FieldSlot.Stores (p : Program) (slot : FieldSlot) (name : String) (type : TypeRef) : Prop :=
  slot.name = name ∧ ∃ storage, Storage.ofType p type = .ok storage ∧ slot.tag = storage.tag ∧
    slot.valueClass = storage.valueClass

/-- A structure that extends nothing has the fields that are declared for its instances, in order. -/
def ClassLayout.HoldsDeclared (p : Program) (l : ClassLayout) : Prop :=
  ∀ id args d, l.type = .named id args → p.typeDef? id = some d → d.kind = .structType →
    l.base = none → List.Forall₂ (fun slot (f : FieldDef) => slot.Stores p f.name (f.type.substitute args))
      l.fields.toList (d.fields.filter (!·.isStatic))

namespace LayoutTable

/-- All structures of the table have their declared fields, if they had them before. -/
def KeepsDeclared (p : Program) (t t' : LayoutTable) : Prop :=
  (∀ l ∈ t.classes, l.HoldsDeclared p) → ∀ l ∈ t'.classes, l.HoldsDeclared p

theorem growth_keepsDeclared (p : Program) : Growth (KeepsDeclared p) :=
  ⟨fun _ h => h, fun h₁ h₂ h => h₂ (h₁ h)⟩

section
variable {p : Program} {ensure : TypeRef → LayoutM (Option Nat)} {t t' : LayoutTable}

theorem inherited_none {base : Option TypeRef} {e : Extent} (h : inherited ensure base t = .ok e t')
    (hbase : e.base = none) : e.fields = #[] := by
  unfold inherited at h
  split at h
  · obtain ⟨rfl, -⟩ := state_pure_ok.1 h
    rfl
  · obtain ⟨id, t₁, -, h⟩ := state_bind_ok.1 h
    split at h
    · obtain ⟨rfl, -⟩ := state_pure_ok.1 h
      rfl
    · rename_i id
      obtain ⟨t₂, t₃, -, h⟩ := state_bind_ok.1 h
      cases hc : t₂.classes[id]? with
      | none =>
        simp only [hc] at h
        obtain ⟨rfl, -⟩ := state_pure_ok.1 h
        rfl
      | some c =>
        simp only [hc] at h
        obtain ⟨rfl, -⟩ := state_pure_ok.1 h
        cases hbase

theorem places_ok {own : List FieldUse} {start e : Extent}
    (h : own.foldlM (place p ensure) start t = .ok e t') : e.base = start.base ∧
      ∃ slots, e.fields.toList = start.fields.toList ++ slots ∧
        List.Forall₂ (fun slot (f : FieldUse) => slot.Stores p f.name f.type) slots own := by
  refine state_foldlM_ok (fun done e _ => e.base = start.base ∧ ∃ slots,
    e.fields.toList = start.fields.toList ++ slots ∧
      List.Forall₂ (fun slot (f : FieldUse) => slot.Stores p f.name f.type) slots done)
    (fun done e f s e' s' ih hplace => ?_) ⟨rfl, [], by simp, .nil⟩ h
  obtain ⟨hbase, slots, hslots, hstores⟩ := ih
  obtain ⟨storage, offset, hstorage, -, rfl⟩ := place_ok hplace
  refine ⟨hbase, slots ++ [⟨f.key, f.name, offset, storage.tag, storage.valueClass⟩], ?_,
    rel_append hstores (.cons ⟨rfl, storage, hstorage, rfl, rfl⟩ .nil)⟩
  rw [Array.toList_push, hslots, append_assoc]

theorem stores_ownUses {d : TypeDef} {key : String} (hkind : d.kind = .structType)
    {slots : List FieldSlot}
    (h : List.Forall₂ (fun slot (f : FieldUse) => slot.Stores p f.name f.type) slots
      (t.ownUses type d args key)) :
    List.Forall₂ (fun slot (f : FieldDef) => slot.Stores p f.name (f.type.substitute args)) slots
      (d.fields.filter (!·.isStatic)) := by
  rw [ownUses, if_pos (by simp [TypeDef.isValueType, hkind]), forall₂_map_right_iff] at h
  exact h

/-- **A structure is laid out** with its declared fields. -/
theorem keepsDeclared_layOut (he : ∀ type, Keeps (KeepsDeclared p) (ensure type)) (type : TypeRef) :
    Keeps (KeepsDeclared p) (layOut p ensure type) := by
  have g := growth_keepsDeclared p
  unfold layOut
  split
  · refine g.bind g.get fun t => ?_
    split
    · exact g.pure _
    · exact g.throw _
    · rename_i id args _ _ d _ hd
      refine g.bind g.get fun t => ?_
      split
      · exact g.pure _
      · refine g.bind (Growth.modify fun _ h => h) fun _ => ?_
        refine g.bind_of (keeps_inherited g he _) fun _ start t₁ hstart => ?_
        refine g.bind_of (g.foldlM (keeps_place g he) _ start) (fun _ extent t₂ hown => ?_) t₁
        obtain ⟨hbase, slots, hslots, hstores⟩ := places_ok hown
        cases word16? extent.size with
        | none => exact g.refl t₂
        | some size =>
          intro ht l hl
          rcases Array.mem_push.1 hl with hl | rfl
          · exact ht l hl
          · intro id' args' d' htype hd' hkind hnone
            cases htype
            rw [hd] at hd'
            cases hd'
            rw [hslots, inherited_none hstart (hbase ▸ hnone)]
            exact stores_ownUses hkind hstores
  · exact g.pure _

end

theorem keepsDeclared_ensureClass (p : Program) :
    ∀ (fuel : Nat) (type : TypeRef), Keeps (KeepsDeclared p) (ensureClass p fuel type)
  | 0, _ => (growth_keepsDeclared p).throw _
  | n + 1, type => keepsDeclared_layOut (keepsDeclared_ensureClass p n) type

theorem Reached.holdsDeclared {t : LayoutTable} (h : Reached p t) :
    ∀ l ∈ t.classes, l.HoldsDeclared p := by
  induction h with
  | build built =>
    obtain ⟨region, own, hregion, hgrown⟩ := grown_of_build (growth_keepsDeclared p)
      (keepsDeclared_ensureClass p _) built
    exact hgrown (by simp [classes_of_addStatics hregion])
  | @layOut t _ fuel type ih => exact keepsDeclared_ensureClass p fuel type t ih
  | @describe t _ descriptors type ih =>
    exact TypeTables.keeps_layout_ensureWithin (growth_keepsDeclared p)
      (keepsDeclared_ensureClass p _) _ type { layout := t, descriptors } ih
  | setDescriptor _ index id ih => exact ih

end LayoutTable

namespace TypeTables

/-! ## Sequences of calls -/

/-- Types are described one after the other, all with success; classes may be laid out and static fields
given their descriptors in between. -/
inductive Calls (p : Program) : TypeTables → List (TypeRef × UInt16) → TypeTables → Prop where
  | start (s : TypeTables) : Calls p s [] s
  | ensure {s s₁ s₂ : TypeTables} {calls : List (TypeRef × UInt16)} {type : TypeRef} {id : UInt16} :
    Calls p s calls s₁ → TypeTables.ensure p type s₁ = .ok id s₂ →
    Calls p s (calls ++ [(type, id)]) s₂
  | layOut {s s₁ : TypeTables} {calls : List (TypeRef × UInt16)} :
    Calls p s calls s₁ → ∀ fuel type, Calls p s calls
      { s₁ with layout := stateAfter (LayoutTable.ensureClass p fuel type) s₁.layout }
  | setDescriptor {s s₁ : TypeTables} {calls : List (TypeRef × UInt16)} :
    Calls p s calls s₁ → ∀ index id, Calls p s calls
      { s₁ with layout := s₁.layout.setStaticDescriptor index id }

/-- Every entry has a descriptor of a type of its key. -/
structure Canonical (p : Program) (s : TypeTables) : Prop where
  reached : LayoutTable.Reached p s.layout
  bounded : s.descriptors.size ≤ 65536
  interned : ∀ i e, s.descriptors.entries[i]? = some e → Interned p s i e

/-- The entries that were there are as they were. -/
structure Lasts (s s' : TypeTables) : Prop where
  keys : s.descriptors.keys <+: s'.descriptors.keys
  entries : ∀ i < s.descriptors.size, s'.descriptors.entries[i]? = s.descriptors.entries[i]?

theorem Lasts.trans {t u : TypeTables} (h₁ : Lasts s t) (h₂ : Lasts t u) : Lasts s u where
  keys := h₁.keys.trans h₂.keys
  entries i hi := by
    have hle := h₁.keys.length_le
    rw [length_keys, length_keys] at hle
    rw [h₂.entries i (Nat.lt_of_lt_of_le hi hle), h₁.entries i hi]

theorem Canonical.empty {t : LayoutTable} (ht : LayoutTable.Reached p t) :
    Canonical p { layout := t } :=
  ⟨ht, by simp [size], fun i e he => by simp at he⟩

section
variable {p : Program} {s : TypeTables}

theorem Canonical.move (h : Canonical p s) {t : LayoutTable} (ht : LayoutTable.Reached p t)
    (hclasses : s.layout.classes.toList <+: t.classes.toList) : Canonical p { s with layout := t } :=
  ⟨ht, h.bounded, fun i e he => Interned.mono (s := s) prefix_rfl hclasses (h.interned i e he)⟩

variable (hnames : p.DistinctNames)
include hnames

/-- **One call.** -/
theorem Canonical.ensure (h : Canonical p s) (hcall : ensure p type s = .ok id s') :
    Canonical p s' ∧ Lasts s s' ∧ HasId p s' type id := by
  obtain ⟨hinterns, hid⟩ := ensureWithin_spec hnames _ hcall
  refine ⟨⟨?_, hinterns.bounded h.bounded, fun i e he => ?_⟩, ⟨hinterns.keys, hinterns.old⟩, hid⟩
  · exact stateAfter_ok hcall ▸ h.reached.describe s.descriptors type
  · by_cases hi : i < s.descriptors.size
    · rw [hinterns.old i hi] at he
      exact (h.interned i e he).mono hinterns.keys hinterns.advances.classes
    · exact hinterns.interned h.reached.sound i e (Nat.le_of_not_lt hi) he

/-- **All calls.** -/
theorem Calls.canonical {calls : List (TypeRef × UInt16)} (hcalls : Calls p s calls s')
    (h : Canonical p s) : Canonical p s' ∧ Lasts s s' ∧ ∀ a ∈ calls, HasId p s' a.1 a.2 := by
  induction hcalls with
  | start => exact ⟨h, ⟨prefix_rfl, fun _ _ => rfl⟩, by simp⟩
  | ensure _ hcall ih =>
    obtain ⟨hs₁, hlasts₁, hids⟩ := ih
    obtain ⟨hs₂, hlasts₂, hid⟩ := hs₁.ensure hnames hcall
    refine ⟨hs₂, hlasts₁.trans hlasts₂, fun a ha => ?_⟩
    rcases mem_append.1 ha with ha | ha
    · exact (hids a ha).mono hlasts₂.keys
    · rw [mem_singleton.1 ha]
      exact hid
  | layOut _ fuel type ih =>
    obtain ⟨hs₁, hlasts, hids⟩ := ih
    exact ⟨hs₁.move (hs₁.reached.layOut fuel type)
      (keeps_ensureClass p fuel type _).classes, ⟨hlasts.keys, hlasts.entries⟩, hids⟩
  | setDescriptor _ index id ih =>
    obtain ⟨hs₁, hlasts, hids⟩ := ih
    exact ⟨hs₁.move (hs₁.reached.setDescriptor index id) prefix_rfl,
      ⟨hlasts.keys, hlasts.entries⟩, hids⟩

end

/-- **Descriptors are canonical and closed.** Along every sequence of calls that end well, types get the
same id exactly if they have the same key, ids keep their meaning, every reserved id is filled in, and
what is filled in describes a type of its key: the parts of a descriptor have the ids of their keys, and
the members of a structure are the fields of its class layout. -/
theorem descriptors_canonical {p : Program} (hnames : p.DistinctNames) {t : LayoutTable}
    (ht : LayoutTable.Reached p t) {calls : List (TypeRef × UInt16)} {s : TypeTables}
    (h : Calls p { layout := t } calls s) :
    (∀ type : TypeRef, DescriptorKey.ofType p (type.described p) = DescriptorKey.ofType p type) ∧
    (∀ a ∈ calls, HasId p s a.1 a.2) ∧ (∀ a ∈ calls, ∀ b ∈ calls,
      a.2 = b.2 ↔ DescriptorKey.ofType p a.1 = DescriptorKey.ofType p b.1) ∧
    (∀ more s', Calls p s more s' →
      (∀ key id, s.descriptors.idOf? key = some id → s'.descriptors.idOf? key = some id) ∧
      ∀ id : UInt16, id.toNat < s.descriptors.size →
        s'.descriptors.get? id = s.descriptors.get? id) ∧
    s.descriptors.toList.length = s.descriptors.size ∧
    (∀ id : UInt16, id.toNat < s.descriptors.size → ∃ type key d,
      DescriptorKey.ofType p type = .ok key ∧ s.descriptors.idOf? key = some id ∧
      s.descriptors.get? id = some d ∧ Describes p s type key d) ∧
    ∀ l ∈ s.layout.classes, l.HoldsDeclared p := by
  obtain ⟨hs, -, hids⟩ := h.canonical hnames (.empty ht)
  refine ⟨DescriptorKey.ofType_described p, hids, fun a ha b hb => ?_, fun more s' hmore => ?_, ?_,
    fun id hid => ?_, hs.reached.holdsDeclared⟩
  · obtain ⟨keyA, hkeyA, hidA, -⟩ := hids a ha
    obtain ⟨keyB, hkeyB, hidB, -⟩ := hids b hb
    rw [hkeyA, hkeyB, Except.ok.injEq]
    constructor
    · intro heq
      have hatA := key_of_idOf? hs.bounded hidA
      rw [heq, key_of_idOf? hs.bounded hidB] at hatA
      exact (Option.some.inj hatA).symm
    · rintro rfl
      exact Option.some.inj (hidA.symm.trans hidB)
  · obtain ⟨-, hlasts, -⟩ := hmore.canonical hnames hs
    refine ⟨fun key id => idOf?_mono hlasts.keys, fun id hid => ?_⟩
    rw [get?, hlasts.entries _ hid, get?]
  · refine filterMap_length_eq_length.2 fun e he => ?_
    obtain ⟨i, hi⟩ := Array.mem_iff_getElem?.1 (Array.mem_toList_iff.1 he)
    obtain ⟨-, _, d, hd, -⟩ := hs.interned i e hi
    rw [hd]
    rfl
  · have he := Array.getElem?_eq_getElem hid
    obtain ⟨hidOf, type, d, hd, hkey, hdescribes⟩ := hs.interned _ _ he
    refine ⟨type, _, d, hkey, ?_, ?_, hdescribes⟩
    · rw [hidOf]
      simp
    · rw [get?, he]
      exact hd

/-- A structure that refers to itself through an array, and one that embeds it. -/
def lattice : Program where
  types := #[
    { name := "Node", kind := .structType, fields := [
      { name := "next", type := .array (.named ⟨0⟩ []) }, { name := "mode", type := .named ⟨1⟩ [] },
      { name := "count", type := .primitive .i32, isStatic := true }] },
    { name := "Mode", kind := .enumType .u8 },
    { name := "Edge", kind := .structType, fields := [
      { name := "weight", type := .primitive .f64 }, { name := "target", type := .named ⟨0⟩ [] }] }]

/-- The types that are described one after the other, with the ids that they get. -/
def latticeCalls : List (TypeRef × UInt16) :=
  [(.array (.byRef (.named ⟨0⟩ [])), 0), (.named ⟨2⟩ [], 3), (.pointer (.array (.named ⟨0⟩ [])), 0),
    (.primitive .u8, 2), (.array (.named ⟨1⟩ []), 5), (.named ⟨0⟩ [], 1)]

/-- The tables after the first of these. -/
def latticeTables (n : Nat) : TypeTables :=
  (latticeCalls.take n).foldl (fun s call => stateAfter (ensure lattice call.1) s) {}

theorem lattice_canonical : lattice.DistinctNames ∧ LayoutTable.Reached lattice {} ∧
    Calls lattice {} latticeCalls (latticeTables 6) ∧
    (latticeTables 6).descriptors.toList = [.array 1,
      .struct 0 [⟨"next", 0, 0⟩, ⟨"mode", 5, 2⟩], .primitive .u8,
      .struct 1 [⟨"weight", 0, 4⟩, ⟨"target", 5, 1⟩], .primitive .f32, .array 2] ∧
    (latticeTables 6).descriptors.toList.length = (latticeTables 6).descriptors.size ∧
    ∀ id : UInt16, id.toNat < (latticeTables 6).descriptors.size → ∃ type key d,
      DescriptorKey.ofType lattice type = .ok key ∧
      (latticeTables 6).descriptors.idOf? key = some id ∧
      (latticeTables 6).descriptors.get? id = some d ∧
      Describes lattice (latticeTables 6) type key d := by
  have hnames : lattice.DistinctNames := by
    have hall : ∀ d ∈ lattice.types, d.kind = .structType → (d.fields.map (·.name)).Nodup := by decide
    exact fun {_ _} hd => hall _ (Array.mem_of_getElem? hd)
  have hreached : LayoutTable.Reached lattice {} :=
    .build (show LayoutTable.build lattice [] [] = .ok {} from rfl)
  have hids : ∀ n : Fin 6, (ensure lattice latticeCalls[n].1).run' (latticeTables n) =
      some latticeCalls[n].2 := by decide +kernel
  have hcalls : ∀ n ≤ 6, Calls lattice {} (latticeCalls.take n) (latticeTables n) := by
    intro n
    induction n with
    | zero => exact fun _ => .start _
    | succ n ih =>
      intro hn
      have hlt : n < latticeCalls.length := hn
      rw [latticeTables, take_add_one, getElem?_eq_getElem hlt, foldl_append]
      exact (ih (by omega)).ensure (ok_of_run' (hids ⟨n, hn⟩))
  obtain ⟨-, -, -, -, hlength, hdescribes, -⟩ := descriptors_canonical hnames hreached (hcalls 6 (by omega))
  exact ⟨hnames, hreached, hcalls 6 (by omega), by decide +kernel, hlength, hdescribes⟩

end TypeTables

end DeviceCode
