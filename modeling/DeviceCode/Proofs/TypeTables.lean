import DeviceCode.Proofs.Bytes
import DeviceCode.Proofs.CompileError

/-!
# Layouts and descriptors only grow

`LayoutTable.Extends t t'`: laying out classes adds to the table and leaves the static region alone.
`TypeTables.Completes s s'`: descriptors that were there stay as they are, and each new one is
filled in. Main statement: `TypeTables.leads_ensure`, the descriptor of a type is complete when its
id is given. So no reserved id is left open in a linked build (`Registry.described_of_link`), and every
static field has a descriptor.
-/

namespace DeviceCode

open LayoutTable

open CompileError

open List

variable {α : Type} {p : Program} {key : DescriptorKey} {s s' : TypeTables} {n : Nat}
  {t : LayoutTable} {c : BuildContext} {r r' : Registry}

theorem Program.fullName_named {id : TypeId} {d : TypeDef} (hd : p.typeDef? id = some d) :
    p.fullName (.named id []) = d.name := by
  simp [fullName, typeName, hd, fullSpelling]

/-- The first entry with a property stays the first one if those that were there keep or miss the
property as before. -/
theorem findIdx?_of_alike {p : α → Bool} {xs ys : Array α} {i : Nat}
    (alike : ∀ (i : Nat) x, xs[i]? = some x → ∃ y, ys[i]? = some y ∧ p y = p x)
    (h : xs.findIdx? p = some i) : ys.findIdx? p = some i := by
  obtain ⟨hlt, hp, hbefore⟩ := Array.findIdx?_eq_some_iff_getElem.1 h
  have entry : ∀ j (hj : j < xs.size), ∃ hj' : j < ys.size, p ys[j] = p xs[j] := by
    intro j hj
    obtain ⟨y, hy, heq⟩ := alike j xs[j] (Array.getElem?_eq_getElem hj)
    obtain ⟨hj', rfl⟩ := Array.getElem?_eq_some_iff.1 hy
    exact ⟨hj', heq⟩
  refine Array.findIdx?_eq_some_iff_getElem.2 ?_
  obtain ⟨hi, heq⟩ := entry i hlt
  refine ⟨hi, by rw [heq]; exact hp, fun j hj => ?_⟩
  obtain ⟨hj', heq⟩ := entry j (by omega)
  rw [heq]
  exact hbefore j hj

namespace LayoutTable

variable {le : α → α → Bool}

theorem mem_insertOrdered {x y : α} : ∀ {xs : List α},
    y ∈ insertOrdered le x xs ↔ y = x ∨ y ∈ xs
  | [] => by simp [insertOrdered]
  | z :: xs => by
    rw [insertOrdered]
    split
    · rw [mem_cons]
    · rw [mem_cons, mem_insertOrdered, mem_cons]
      exact or_left_comm

theorem mem_sortBy {y : α} : ∀ {xs : List α},
    y ∈ sortBy le xs ↔ y ∈ xs
  | [] => Iff.rfl
  | x :: xs => by
    rw [sortBy, foldr_cons, mem_insertOrdered, mem_cons]
    exact or_congr Iff.rfl mem_sortBy

theorem getElem?_mono {t' : LayoutTable} {i : Nat} {c : ClassLayout}
    (h : t.classes.toList <+: t'.classes.toList) (hc : t.classes[i]? = some c) :
    t'.classes[i]? = some c := by
  rw [← Array.getElem?_toList] at hc ⊢
  obtain ⟨hi, rfl⟩ := List.getElem?_eq_some_iff.1 hc
  exact prefix_iff_getElem?.1 h i hi

theorem classId?_mono {t' : LayoutTable} {key : String} {i : Nat}
    (h : t.classes.toList <+: t'.classes.toList) (hi : t.classId? key = some i) :
    t'.classId? key = some i :=
  findIdx?_of_alike (fun _ c hc => ⟨c, getElem?_mono h hc, rfl⟩) hi

/-- Classes were added, and nothing else about the storage has changed. -/
structure Extends (t t' : LayoutTable) : Prop where
  classes : t.classes.toList <+: t'.classes.toList
  statics : t'.statics = t.statics
  staticSize : t'.staticSize = t.staticSize

theorem growth_extends : Growth Extends where
  refl _ := ⟨prefix_rfl, rfl, rfl⟩
  trans h₁ h₂ := ⟨h₁.classes.trans h₂.classes, h₂.statics.trans h₁.statics,
    h₂.staticSize.trans h₁.staticSize⟩

/-- Marks a class whose layout is begun. -/
def mark (key : String) : LayoutM Unit := modify fun t => { t with inProgress := key :: t.inProgress }

/-- Adds a class and takes its mark away. -/
def finish (c : ClassLayout) : LayoutM (Option Nat) := do
  let t ← get
  set { t with classes := t.classes.push c, inProgress := t.inProgress.erase c.key }
  return some t.classes.size

section
variable {E : CompileError → Prop} [CompileError.HoldsOrdinary E]
  {Φ : {α : Type} → LayoutM α → LayoutM α → Prop} (h : Parallel E Φ)
  {u v : TypeRef → LayoutM (Option Nat)}
include h

omit [CompileError.HoldsOrdinary E] in
theorem parallel_inherited {base : Option TypeRef} (he : ∀ b, base = some b → Φ (u b) (v b)) :
    Φ (inherited u base) (inherited v base) := by
  unfold inherited
  cases base with
  | none => exact h.pure _
  | some b =>
    refine h.bind (he b rfl) fun id => ?_
    split
    · exact h.pure _
    · refine h.bind h.get fun t => ?_
      split <;> exact h.pure _

theorem parallel_place (e : Extent) {f : FieldUse} (he : Φ (u f.type) (v f.type)) :
    Φ (place p u e f) (place p v e f) := by
  refine h.bind (h.ofExcept (decides_storage p f.type)) fun storage => ?_
  dsimp only
  split
  · refine h.bind (h.bind he fun _ => h.pure _) fun _ => ?_
    split
    · exact h.throw (ordinary rfl)
    · exact h.pure _
  · split
    · exact h.throw (ordinary rfl)
    · exact h.pure _

theorem parallel_layOut (he : ∀ type, Φ (u type) (v type)) (hmark : ∀ key, Doubly Φ (mark key))
    (hfinish : ∀ c, Doubly Φ (finish c)) (type : TypeRef) :
    Φ (layOut p u type) (layOut p v type) := by
  unfold layOut
  split
  · refine h.bind h.get fun t => ?_
    split
    · exact h.pure _
    · exact h.throw (ordinary rfl)
    · refine h.bind h.get fun t => ?_
      split
      · exact h.pure _
      · refine h.bind (hmark _) fun _ => ?_
        refine h.bind (parallel_inherited h fun b _ => he b) fun start => ?_
        refine h.bind h.get fun t => ?_
        refine h.bind (h.foldlM (fun e f _ => parallel_place h e (he f.type)) start) fun extent => ?_
        split
        · exact h.throw (ordinary rfl)
        · exact hfinish { key := p.fullName _, type := _, base := extent.base, size := _, fields := _ }
  · exact h.pure _

end

section
variable {ensure : TypeRef → LayoutM (Option Nat)}
  {R : LayoutTable → LayoutTable → Prop} (g : Growth R) (he : ∀ type, Keeps R (ensure type))
include g he

theorem keeps_inherited (base : Option TypeRef) : Keeps R (inherited ensure base) :=
  parallel_inherited g.keeps_parallel (v := ensure) fun b _ => he b

theorem keeps_place (e : Extent) (f : FieldUse) : Keeps R (place p ensure e f) :=
  parallel_place g.keeps_parallel (v := ensure) e (he f.type)

end

theorem keeps_ensureClass (p : Program) :
    ∀ (fuel : Nat) (type : TypeRef), Keeps Extends (ensureClass p fuel type)
  | 0, _ => growth_extends.throw _
  | n + 1, type => by
    refine parallel_layOut growth_extends.keeps_parallel (v := ensureClass p n)
      (keeps_ensureClass p n) (fun key t => ⟨prefix_rfl, rfl, rfl⟩) (fun c t => ?_) type
    refine ⟨?_, rfl, rfl⟩
    show t.classes.toList <+: (t.classes.push c).toList
    rw [Array.toList_push]
    exact prefix_append _ _

end LayoutTable

namespace DescriptorTable

def keys (t : DescriptorTable) : List DescriptorKey := t.entries.toList.map (·.key)

section
variable {t t' : DescriptorTable} {id : UInt16}

theorem length_keys (t : DescriptorTable) : t.keys.length = t.size := by simp [keys, size]

theorem idOf?_eq (t : DescriptorTable) (key : DescriptorKey) :
    t.idOf? key = (t.keys.findIdx? (· == key)).map Nat.toUInt16 := by
  rw [idOf?, keys, findIdx?_map, findIdx?_toArray]
  rfl

theorem idOf?_eq_some : t.idOf? key = some id ↔
    ∃ i, t.keys.findIdx? (· == key) = some i ∧ i.toUInt16 = id := by
  rw [idOf?_eq, Option.map_eq_some_iff]

theorem idOf?_mono (h : t.keys <+: t'.keys) (hid : t.idOf? key = some id) :
    t'.idOf? key = some id := by
  obtain ⟨i, hi, rfl⟩ := idOf?_eq_some.1 hid
  obtain ⟨rest, hrest⟩ := h
  refine idOf?_eq_some.2 ⟨i, ?_, rfl⟩
  rw [← hrest, findIdx?_append, hi]
  rfl

theorem lt_size_of_idOf? (hid : t.idOf? key = some id) : id.toNat < t.size := by
  obtain ⟨i, hi, rfl⟩ := idOf?_eq_some.1 hid
  have hlt := (findIdx?_eq_some_iff_findIdx_eq.1 hi).1
  rw [length_keys] at hlt
  exact Nat.lt_of_le_of_lt (Nat.mod_le _ _) hlt

theorem key_of_idOf? (hsize : t.size ≤ 65536) (hid : t.idOf? key = some id) :
    t.keys[id.toNat]? = some key := by
  obtain ⟨i, hi, rfl⟩ := idOf?_eq_some.1 hid
  obtain ⟨hlt, hkey, -⟩ := findIdx?_eq_some_iff_getElem.1 hi
  have hsmall : i < 65536 := Nat.lt_of_lt_of_le hlt (length_keys t ▸ hsize)
  rw [toNat_toUInt16 hsmall, getElem?_eq_getElem hlt, eq_of_beq hkey]

theorem idOf?_of_snoc (h : t.keys ++ [key] <+: t'.keys) (hid : t.idOf? key = none) :
    t'.idOf? key = some t.size.toUInt16 := by
  obtain ⟨rest, hrest⟩ := h
  refine idOf?_eq_some.2 ⟨t.size, ?_, rfl⟩
  rw [idOf?_eq, Option.map_eq_none_iff] at hid
  rw [← hrest, append_assoc, findIdx?_append, hid]
  simp [findIdx?_cons, length_keys]

end

end DescriptorTable

namespace TypeTables

open DescriptorTable

/-- The descriptors that were there are as they were, and each new one is filled in. -/
structure Completes (s s' : TypeTables) : Prop where
  layout : LayoutTable.Extends s.layout s'.layout
  size : s.descriptors.entries.size ≤ s'.descriptors.entries.size
  old : ∀ i < s.descriptors.entries.size,
    s'.descriptors.entries[i]? = s.descriptors.entries[i]?
  new : ∀ i e, s.descriptors.entries.size ≤ i → s'.descriptors.entries[i]? = some e →
    e.descriptor.isSome

theorem growth_completes : Growth Completes where
  refl s := ⟨growth_extends.refl _, Nat.le_refl _, fun _ _ => rfl, fun i e hi he => by
    rw [Array.getElem?_eq_none hi] at he
    cases he⟩
  trans {s t u} h₁ h₂ := {
    layout := growth_extends.trans h₁.layout h₂.layout
    size := Nat.le_trans h₁.size h₂.size
    old := fun i hi => (h₂.old i (Nat.lt_of_lt_of_le hi h₁.size)).trans (h₁.old i hi)
    new := fun i e hi he => by
      by_cases ht : i < t.descriptors.entries.size
      · exact h₁.new i e hi (h₂.old i ht ▸ he)
      · exact h₂.new i e (by omega) he }

variable {x : LayoutM α} {type : TypeRef} {id : UInt16}

theorem onLayout_ok {a : α} :
    onLayout x s = .ok a s' ↔ ∃ t, x s.layout = .ok a t ∧ s' = { s with layout := t } := by
  unfold onLayout
  cases x s.layout <;> simp [eq_comm]

theorem onLayout_error {e : CompileError} :
    onLayout x s = .error e s' ↔ ∃ t, x s.layout = .error e t ∧ s' = { s with layout := t } := by
  unfold onLayout
  cases x s.layout <;> simp [eq_comm]

theorem stateAfter_onLayout (x : LayoutM α) (s : TypeTables) :
    stateAfter (onLayout x) s = { s with layout := stateAfter x s.layout } := by
  unfold stateAfter onLayout
  cases x s.layout <;> rfl

theorem keeps_onLayout (h : Keeps LayoutTable.Extends x) :
    Keeps Completes (onLayout x) := by
  intro s
  rw [stateAfter_onLayout]
  exact { growth_completes.refl s with layout := h s.layout }

/-- Fills in the descriptor of a reserved id. -/
def fill (id : UInt16) (d : Descriptor) : TypeTablesM Unit := modify fun s => { s with
  descriptors := { entries := s.descriptors.entries.modify id.toNat fun e =>
    { e with descriptor := some d } } }

section
variable {E : CompileError → Prop} [CompileError.HoldsOrdinary E]
  {Φ : {α : Type} → TypeTablesM α → TypeTablesM α → Prop} (h : Parallel E Φ)
  {u v : TypeRef → TypeTablesM UInt16}
include h

theorem parallel_members {d : Option TypeDef} {args : List TypeRef}
    (he : ∀ d' f, d = some d' → f ∈ d'.fields →
      Φ (u (f.type.substitute args)) (v (f.type.substitute args))) (fields : List FieldSlot) :
    Φ (members u d args fields) (members v d args fields) := by
  refine h.mapM (fun slot => ?_) fields
  split
  · exact h.throw (ordinary rfl)
  · rename_i f hf
    obtain ⟨d', hd', hf⟩ := Option.bind_eq_some_iff.1 hf
    exact h.bind (he d' f hd' (mem_of_find?_eq_some hf)) fun _ => h.pure _

theorem parallel_build (hclass : Doubly Φ (ensureClass p type.pointee))
    (helement : ∀ t, type.pointee = .array t → Φ (u t) (v t))
    (hfield : ∀ id args d f, type.pointee = .named id args → p.typeDef? id = some d → f ∈ d.fields →
      Φ (u (f.type.substitute args)) (v (f.type.substitute args))) (key : DescriptorKey) :
    Φ (build p u type key) (build p v type key) := by
  cases key with
  | primitive tag | string | reference name => exact h.pure _
  | array key =>
    unfold build
    dsimp only
    split
    · rename_i t ht
      exact h.bind (helement t ht) fun _ => h.pure _
    · exact h.pure _
  | struct name =>
    refine h.bind hclass fun c => ?_
    cases c with
    | none => exact h.throw (ordinary rfl)
    | some c =>
      refine h.bind h.get fun s => ?_
      dsimp only
      split
      · rename_i id args hnamed
        exact h.bind (parallel_members h (fun d f => hfield id args d f hnamed) _) fun _ => h.pure _
      · exact h.pure _

theorem parallel_ensureWithin (hbound : E .unboundedInstantiation)
    (hclass : ∀ type, Doubly Φ (ensureClass p type))
    (hreserve : ∀ key, Doubly Φ (reserve key)) (hfill : ∀ id d, Doubly Φ (fill id d)) :
    ∀ (n : Nat) (type : TypeRef), Doubly Φ (ensureWithin p n type)
  | 0, _ => h.throw hbound
  | n + 1, type => by
    have hparts := fun t => parallel_ensureWithin hbound hclass hreserve hfill n t
    refine h.bind (h.ofExcept (decides_descriptorKey p type)) fun key => h.bind h.get fun s => ?_
    split
    · exact h.pure _
    · refine h.bind (hreserve key) fun id => ?_
      refine h.bind (parallel_build h (hclass _) (fun t _ => hparts t)
        (fun _ _ _ _ _ _ _ => hparts _) key) fun d => ?_
      exact h.bind (hfill id d) fun _ => h.pure _

end

theorem leads_build {ensure : TypeRef → TypeTablesM UInt16}
    (he : ∀ type, Leads Completes (ensure type)) (type : TypeRef) (key : DescriptorKey) :
    Leads Completes (build p ensure type key) :=
  parallel_build growth_completes.leads_parallel (v := ensure)
    (keeps_onLayout (keeps_ensureClass p _ _)).leads (fun t _ => he t)
    (fun _ _ _ _ _ _ _ => he _) key

/-- The tables with the next id taken for the key. -/
def reserved (s : TypeTables) (key : DescriptorKey) : TypeTables :=
  { s with descriptors := { entries := s.descriptors.entries.push { key } } }

/-- The tables with the descriptor of an id filled in. -/
def filled (s : TypeTables) (n : Nat) (d : Descriptor) : TypeTables :=
  { s with descriptors := { entries := s.descriptors.entries.modify n fun e =>
      { e with descriptor := some d } } }

theorem keys_reserved (s : TypeTables) (key : DescriptorKey) :
    (s.reserved key).descriptors.keys = s.descriptors.keys ++ [key] := by
  simp [reserved, DescriptorTable.keys]

theorem keys_filled (s : TypeTables) (n : Nat) (d : Descriptor) :
    (s.filled n d).descriptors.keys = s.descriptors.keys := by
  apply ext_getElem?
  intro i
  simp only [filled, DescriptorTable.keys, getElem?_map, Array.getElem?_toList,
    Array.getElem?_modify]
  split
  · rw [Option.map_map]
    rfl
  · rfl

theorem reserve_ok (h : reserve key s = .ok id s') :
    id.toNat = s.descriptors.entries.size ∧ s' = s.reserved key := by
  unfold reserve at h
  rw [state_get_bind] at h
  split at h
  · rename_i hlt
    obtain ⟨_, t', ht, h⟩ := state_bind_ok.1 h
    rw [state_set_ok] at ht
    obtain ⟨rfl, rfl⟩ := state_pure_ok.1 h
    exact ⟨toNat_toUInt16 (Nat.lt_of_lt_of_le hlt (by omega)), ht.symm⟩
  · simp at h

/-- What is built behind a reserved id is complete once the reservation is filled in. -/
theorem completes_fill {s₂ : TypeTables} {d : Descriptor} (h : Completes (s.reserved key) s₂) :
    Completes s (s₂.filled s.descriptors.entries.size d) := by
  have hsize := h.size
  have hold := h.old
  have hnew := h.new
  simp only [reserved, Array.size_push] at hsize hold hnew
  refine ⟨h.layout, by simpa [filled] using Nat.le_of_succ_le hsize, fun i hi => ?_,
    fun i e hi he => ?_⟩
  · simp only [filled, Array.getElem?_modify]
    rw [if_neg (by omega), hold i (by omega), Array.getElem?_push_lt hi,
      Array.getElem?_eq_getElem hi]
  · simp only [filled, Array.getElem?_modify] at he
    split at he
    · obtain ⟨e', -, rfl⟩ := Option.map_eq_some_iff.1 he
      rfl
    · exact hnew i e (by omega) he

theorem Completes.keys (h : Completes s s') : s.descriptors.keys <+: s'.descriptors.keys := by
  refine prefix_iff_getElem?.2 fun i hi => ?_
  rw [length_keys] at hi
  rw [DescriptorTable.keys, getElem?_map, Array.getElem?_toList, h.old i hi,
    Array.getElem?_eq_getElem hi]
  simp only [DescriptorTable.keys, getElem_map, Array.getElem_toList]
  rfl

theorem idOf?_filled {s₂ : TypeTables} (hnew : s.descriptors.idOf? key = none)
    (h : Completes (s.reserved key) s₂) (d : Descriptor) :
    (s₂.filled s.descriptors.size d).descriptors.idOf? key = some s.descriptors.size.toUInt16 := by
  refine idOf?_of_snoc ?_ hnew
  rw [keys_filled, ← keys_reserved]
  exact h.keys

theorem ensureWithin_ok (h : ensureWithin p (n + 1) type s = .ok id s') :
    ∃ key, DescriptorKey.ofType p type = .ok key ∧
      ((s.descriptors.idOf? key = some id ∧ s = s') ∨
        s.descriptors.idOf? key = none ∧ id.toNat = s.descriptors.entries.size ∧ ∃ d s₂,
          build p (ensureWithin p n) type key (s.reserved key) = .ok d s₂ ∧
          s' = s₂.filled s.descriptors.entries.size d) := by
  obtain ⟨key, hkey, h⟩ := state_ofExcept_bind_ok.1 h
  rw [state_get_bind] at h
  refine ⟨key, hkey, ?_⟩
  cases hid : s.descriptors.idOf? key with
  | some known =>
    simp only [hid] at h
    obtain ⟨rfl, rfl⟩ := state_pure_ok.1 h
    exact .inl ⟨rfl, rfl⟩
  | none =>
    simp only [hid] at h
    obtain ⟨id', s₁, hres, h⟩ := state_bind_ok.1 h
    obtain ⟨hsize, rfl⟩ := reserve_ok hres
    obtain ⟨d, s₂, hbuild, h⟩ := state_bind_ok.1 h
    obtain ⟨_, s₃, hmod, h⟩ := state_bind_ok.1 h
    rw [state_modify_ok, hsize] at hmod
    obtain ⟨rfl, rfl⟩ := state_pure_ok.1 h
    exact .inr ⟨rfl, hsize, d, s₂, hbuild, hmod.symm⟩

theorem leads_ensureWithin (p : Program) :
    ∀ (fuel : Nat) (type : TypeRef), Leads Completes (ensureWithin p fuel type)
  | 0, _ => leads_throw _
  | n + 1, type => by
    intro s id s' h
    obtain ⟨key, -, ⟨-, rfl⟩ | ⟨-, -, d, s₂, hbuild, rfl⟩⟩ := ensureWithin_ok h
    · exact growth_completes.refl s
    · exact completes_fill (leads_build (leads_ensureWithin p n) type key _ _ _ hbuild)

/-- **The id of a type** is that of its key. -/
theorem idOf?_of_ensureWithin : ∀ {n : Nat}, ensureWithin p n type s = .ok id s' →
    ∃ key, DescriptorKey.ofType p type = .ok key ∧ s'.descriptors.idOf? key = some id
  | 0, h => absurd h (by simp [ensureWithin])
  | n + 1, h => by
    obtain ⟨key, hkey, ⟨hid, rfl⟩ | ⟨hnew, hsize, d, s₂, hbuild, rfl⟩⟩ := ensureWithin_ok h
    · exact ⟨key, hkey, hid⟩
    · have hcompletes := leads_build (leads_ensureWithin p n) type key _ _ _ hbuild
      have hid : s.descriptors.size.toUInt16 = id := by
        rw [DescriptorTable.size, ← hsize]
        exact UInt16.ofNat_toNat
      exact ⟨key, hkey, hid ▸ idOf?_filled hnew hcompletes d⟩

theorem idOf?_of_ensure (h : ensure p type s = .ok id s') :
    ∃ key, DescriptorKey.ofType p type = .ok key ∧ s'.descriptors.idOf? key = some id :=
  idOf?_of_ensureWithin h

/-- **The descriptor of a type is complete** when its id is given. -/
theorem leads_ensure (p : Program) (type : TypeRef) : Leads Completes (ensure p type) :=
  leads_ensureWithin p _ type

/-- Every reserved id has its descriptor. -/
def Filled (s : TypeTables) : Prop := ∀ e ∈ s.descriptors.entries, e.descriptor.isSome

theorem Completes.filled (h : Completes s s') (hs : s.Filled) : s'.Filled := by
  intro e he
  obtain ⟨i, hi⟩ := Array.mem_iff_getElem?.1 he
  by_cases hlt : i < s.descriptors.entries.size
  · rw [h.old i hlt] at hi
    exact hs e (Array.mem_of_getElem? hi)
  · exact h.new i e (by omega) hi

end TypeTables

namespace Registry

/-! ## Static fields -/

/-- A static field without its descriptor. -/
def undescribed (f : StaticField) : StaticField := { f with descriptor := none }

/-- The tables of a link: every reserved id has its descriptor, the static region is that of `t`,
and the first `n` static fields have descriptors. -/
structure Described (n : Nat) (t : LayoutTable) (s : TypeTables) : Prop where
  filled : s.Filled
  statics : s.layout.statics.map undescribed = t.statics.map undescribed
  staticSize : s.layout.staticSize = t.staticSize
  described : ∀ i f, i < n → s.layout.statics[i]? = some f → f.descriptor.isSome

theorem Described.completes (h : Described n t s) (hs : TypeTables.Completes s s') :
    Described n t s' where
  filled := hs.filled h.filled
  statics := by rw [hs.layout.statics, h.statics]
  staticSize := hs.layout.staticSize.trans h.staticSize
  described := by rw [hs.layout.statics]; exact h.described

theorem Described.set (h : Described n t s) (id : UInt16) :
    Described (n + 1) t { s with layout := s.layout.setStaticDescriptor n id } where
  filled := h.filled
  statics := by
    rw [← h.statics]
    apply Array.ext_getElem?
    intro i
    simp only [setStaticDescriptor, Array.getElem?_map, Array.getElem?_modify]
    split
    · cases s.layout.statics[i]? <;> rfl
    · rfl
  staticSize := h.staticSize
  described i f hi hf := by
    simp only [setStaticDescriptor, Array.getElem?_modify] at hf
    split at hf
    · obtain ⟨f', -, rfl⟩ := Option.map_eq_some_iff.1 hf
      rfl
    · exact h.described i f (by omega) hf

theorem describe_each {P : Nat → TypeTables → Prop} {describe : StaticField × Nat → TypeTablesM Unit}
    (hd : ∀ {f n s u s'}, describe (f, n) s = .ok u s' →
      ∃ id s₁, TypeTables.ensure p f.type s = .ok id s₁ ∧
      s' = { s₁ with layout := s₁.layout.setStaticDescriptor n id }) :
    ∀ {fs : List StaticField} {n : Nat} {s s' : TypeTables} {u : Unit},
      (∀ (k : Nat) f s id s₁, fs[k]? = some f → P (n + k) s → TypeTables.ensure p f.type s = .ok id s₁ →
        P (n + k + 1) { s₁ with layout := s₁.layout.setStaticDescriptor (n + k) id }) →
      (fs.zipIdx n).forM describe s = .ok u s' → P n s → P (n + fs.length) s'
  | [], n, s, s', u, _, h, hs => by
    obtain ⟨-, rfl⟩ := state_pure_ok.1 h
    exact hs
  | f :: fs, n, s, s', u, hstep, h, hs => by
    obtain ⟨_, s₂, h₁, h₂⟩ := state_bind_ok.1 h
    obtain ⟨id, s₁, hid, rfl⟩ := hd h₁
    have hrest := describe_each hd (P := P) (fun k g s id s₁ hg hs hid => by
      have := hstep (k + 1) g s id s₁ hg (by rwa [← Nat.add_assoc, Nat.add_right_comm]) hid
      rwa [← Nat.add_assoc, Nat.add_right_comm n k 1] at this) h₂ (hstep 0 f s id s₁ rfl hs hid)
    rwa [length_cons, Nat.add_comm fs.length 1, ← Nat.add_assoc]

variable {E : CompileError → Prop} {linked : Linked} {f : Fixup} {u : Unit}

/-- What holds of the tables while the static fields are described, one after the other, holds in the
end. -/
theorem describeStatics_ok {P : Nat → TypeTables → Prop} (start : P 0 { layout := t })
    (hstep : ∀ (n : Nat) f s id s₁, t.statics[n]? = some f → P n s →
      TypeTables.ensure p f.type s = .ok id s₁ →
      P (n + 1) { s₁ with layout := s₁.layout.setStaticDescriptor n id })
    (h : describeStatics p t.statics.toList { layout := t } = .ok u s) : P t.statics.size s := by
  have hdone := describe_each (P := P) (fun hdescribe => by
    obtain ⟨id, s₁, hid, hset⟩ := state_bind_ok.1 hdescribe
    rw [state_modify_ok] at hset
    exact ⟨id, s₁, hid, hset.symm⟩) (fun k f s id s₁ hf hs hid => by
    rw [Nat.zero_add] at hs ⊢
    exact hstep k f s id s₁ (by rwa [Array.getElem?_toList] at hf) hs hid) h start
  rwa [Nat.zero_add] at hdone

theorem described_of_statics (h : describeStatics p t.statics.toList { layout := t } = .ok u s) :
    Described t.statics.size t s := by
  refine describeStatics_ok (P := fun n s => Described n t s)
    ⟨fun e he => by simp at he, rfl, rfl, fun i f hi => by omega⟩ (fun n f s id s₁ _ hs hid => ?_) h
  exact (hs.completes (TypeTables.leads_ensure p f.type _ _ _ hid)).set id

theorem tables_ok (h : r.tables c = .ok s) :
    ∃ t, LayoutTable.build c.program r.fields.toList
        (r.classes.toList.map (·.2) ++ r.layoutRoots.toList) = .ok t ∧
      describeStatics c.program t.statics.toList { layout := t } = .ok () s ∧
      checkStructs s.layout r.methods.toList = .ok () := by
  obtain ⟨t, ht, h⟩ := except_bind_ok.1 h
  refine ⟨t, ht, ?_⟩
  cases hd : (describeStatics c.program t.statics.toList).run { layout := t } with
  | error e s' => simp [hd] at h
  | ok u s' =>
    simp only [hd] at h
    obtain ⟨_, hcheck, h⟩ := except_bind_ok.1 h
    rw [except_pure_ok] at h
    subst h
    exact ⟨hd, hcheck⟩

/-! ## The link -/

theorem parallel_operandValue [CompileError.HoldsOrdinary E]
    {Φ : {α : Type} → TypeTablesM α → TypeTablesM α → Prop} (h : Parallel E Φ) (r : Registry)
    {operand : LinkOperand} (hensure : ∀ type, operand = .descriptorId type →
      Doubly Φ (TypeTables.ensure p type)) :
    Doubly Φ (operandValue p r operand) := by
  cases operand with
  | classId key =>
    exact h.bind h.get fun s => h.bind (h.ofExcept (decides_known _ _ _)) fun id =>
      h.ofExcept (decides_operandWord (by decide) _)
  | descriptorId type => exact hensure type rfl
  | fieldOffset key => exact h.bind h.get fun s => h.ofExcept (decides_known _ _ _)
  | dispatchIndex key =>
    exact h.bind (h.ofExcept (decides_known _ _ _)) fun index =>
      h.ofExcept (decides_operandWord (by decide) _)

theorem parallel_applyFixup [CompileError.HoldsOrdinary E]
    {Φ : {α : Type} → RegistryM α → RegistryM α → Prop} (h : Parallel E Φ) {t : TypeTables}
    (herror : ∀ {r e t'}, operandValue p r f.operand t = .error e t' → E e)
    (hpatch : ∀ value, Doubly Φ (modify (patch f value))) :
    Doubly Φ (applyFixup p t f) := by
  refine h.bind h.get fun r => ?_
  split
  · rename_i hrun
    exact h.throw (herror hrun)
  · exact h.bind h.get fun r => h.bind (h.ofExcept (decides_checkSite _ _)) fun _ =>
      h.bind (hpatch _) fun _ => h.pure _

theorem leads_operandValue (p : Program) (r : Registry) (operand : LinkOperand) :
    Leads TypeTables.Completes (operandValue p r operand) :=
  parallel_operandValue TypeTables.growth_completes.leads_parallel r fun type _ =>
    TypeTables.leads_ensure p type

theorem applyFixup_ok {t t' : TypeTables} (h : applyFixup p t f r = .ok t' r') :
    ∃ value, operandValue p r f.operand t = .ok value t' ∧ checkSite f r = .ok () ∧
      r' = r.patch f value := by
  unfold applyFixup at h
  rw [state_get_bind] at h
  cases hv : (operandValue p r f.operand).run t with
  | error e t₁ => simp [hv] at h
  | ok value t₁ =>
    simp only [hv] at h
    obtain ⟨_, hsite, h⟩ := state_ofExcept_bind_ok.1 h
    obtain ⟨_, r₁, hmod, h⟩ := state_bind_ok.1 h
    rw [state_modify_ok] at hmod
    obtain ⟨rfl, rfl⟩ := state_pure_ok.1 h
    exact ⟨value, hv, hsite, hmod.symm⟩

theorem link_ok (h : link c r = .ok linked r') :
    ∃ r₁ s s', bindSlots c r = .ok linked.iterations r₁ ∧
      checkNative r₁.blockCallers = .ok () ∧ r₁.blockCallers.tables c = .ok s ∧
      r₁.blockCallers.fixups.toList.foldlM (applyFixup c.program) s
        { r₁.blockCallers with fixups := #[] } = .ok s' r' ∧
      linked.layout = s'.layout ∧ linked.descriptors = s'.descriptors ∧
      linked.fixupsApplied = r₁.blockCallers.fixups.size := by
  unfold link at h
  obtain ⟨iterations, r₁, hbind, h⟩ := state_bind_ok.1 h
  obtain ⟨_, hnative, h⟩ := state_ofExcept_bind_ok.1 h
  rw [state_get_bind] at h
  obtain ⟨s, htables, h⟩ := state_ofExcept_bind_ok.1 h
  obtain ⟨⟨s', n⟩, r₂, happly, h⟩ := state_bind_ok.1 h
  obtain ⟨rfl, rfl⟩ := state_pure_ok.1 h
  unfold applyFixups at happly
  rw [state_get_bind] at happly
  rw [state_modify_bind] at happly
  obtain ⟨s'', r₃, hfold, happly⟩ := state_bind_ok.1 happly
  obtain ⟨heq, rfl⟩ := state_pure_ok.1 happly
  obtain ⟨rfl, rfl⟩ := Prod.mk.inj heq
  rw [← Array.foldlM_toList] at hfold
  exact ⟨r₁, s, s'', hbind, hnative, htables, hfold, rfl, rfl, rfl⟩

/-- **A linked build has no open reservation**: every id has its descriptor, and so has every static
field. -/
theorem described_of_link (h : link c r = .ok linked r') :
    ∃ r₁ roots t s, bindSlots c r = .ok linked.iterations r₁ ∧
      LayoutTable.build c.program r₁.blockCallers.fields.toList roots = .ok t ∧
      Described t.statics.size t s ∧ linked.layout = s.layout ∧
      linked.descriptors = s.descriptors := by
  obtain ⟨r₁, s, s', hbind, -, htables, hfold, hlayout, hdesc, -⟩ := link_ok h
  obtain ⟨t, ht, hs, -⟩ := tables_ok htables
  refine ⟨r₁, _, t, s', hbind, ht, ?_, hlayout, hdesc⟩
  refine state_foldlM_ok (fun _ s _ => Described t.statics.size t s) ?_ (described_of_statics hs) hfold
  intro done s f r s' r' hs hstep
  obtain ⟨value, hvalue, -, -⟩ := applyFixup_ok hstep
  exact hs.completes (leads_operandValue _ _ _ _ _ _ hvalue)

end Registry

end DeviceCode
