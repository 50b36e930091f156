import DeviceCode.Proofs.HostSurface
import Mathlib.Data.List.Sort

/-!
# The static region depends on the fields alone

The fields of the static region are sorted where they are declared, and a field that is used twice has
one slot. `DeclarationOrder.Before`: by the declaring type, then by the position in it, then by the
key. `Arranged`: the fields in that order, each once, and a static field for each of them. Since a
strict order admits one such list, and end to end the tags tell the offsets, the region is a function
of the set of fields (`statics_of_uses`), whatever the order and the number of their uses.
-/

namespace DeviceCode.LayoutTable

open DeclarationOrder

open List

variable {a b c : DeclarationOrder} {p : Program} {fields : List FieldUse}
  {ss ss' : List StaticField} {α : Type}

/-! ## Declaration order -/

namespace DeclarationOrder

/-- `a` comes before `b`: by the declaring type, then by the position in it, where unknown fields come
last, then by the key. -/
inductive Before (a b : DeclarationOrder) : Prop
  | type (rank : a.typeRank < b.typeRank)
  | position {i : Nat} (rank : a.typeRank = b.typeRank) (known : a.position = some i)
    (later : ∀ j, b.position = some j → i < j)
  | key (rank : a.typeRank = b.typeRank) (position : a.position = b.position) (key : a.key < b.key)

theorem Before.trans (hab : Before a b) (hbc : Before b c) : Before a c := by
  cases hab with
  | type rank =>
    cases hbc with
    | type rank' => exact .type (Nat.lt_trans rank rank')
    | position rank' | key rank' => exact .type (rank' ▸ rank)
  | position rank known later =>
    cases hbc with
    | type rank' => exact .type (rank ▸ rank')
    | position rank' known' later' =>
      exact .position (rank.trans rank') known fun j hj =>
        Nat.lt_trans (later _ known') (later' j hj)
    | key rank' same => exact .position (rank.trans rank') known (same ▸ later)
  | key rank same key =>
    cases hbc with
    | type rank' => exact .type (rank ▸ rank')
    | position rank' known' later' => exact .position (rank.trans rank') (same ▸ known') later'
    | key rank' same' key' =>
      exact .key (rank.trans rank') (same.trans same') (String.lt_trans key key')

theorem Before.irrefl (a : DeclarationOrder) : ¬ Before a a := by
  intro h
  cases h with
  | type rank => exact Nat.lt_irrefl _ rank
  | position rank known later => exact Nat.lt_irrefl _ (later _ known)
  | key rank same key => exact String.lt_irrefl _ key

theorem Before.asymm (hab : Before a b) : ¬ Before b a :=
  fun hba => Before.irrefl a (hab.trans hba)

theorem typeRank_inj (h : a.typeRank = b.typeRank) : a.type = b.type := by
  unfold typeRank at h
  cases ha : a.type <;> cases hb : b.type <;> simp only [ha, hb] at h
  · rfl
  · omega
  · omega
  · rename_i id id'
    have hval : id.val = id'.val := UInt32.toNat_inj.1 (Nat.add_right_cancel h)
    cases id
    exact congrArg _ (congrArg _ hval)

theorem trichotomy (a b : DeclarationOrder) : Before a b ∨ a = b ∨ Before b a := by
  rcases Nat.lt_trichotomy a.typeRank b.typeRank with hrank | hrank | hrank
  · exact .inl (.type hrank)
  · by_cases hposition : a.position = b.position
    · by_cases hle : a.key ≤ b.key
      · by_cases hge : b.key ≤ a.key
        · have htype := typeRank_inj hrank
          have hkey := String.le_antisymm hle hge
          obtain ⟨_, _, _⟩ := a
          cases htype
          cases hposition
          cases hkey
          exact .inr (.inl rfl)
        · exact .inl (.key hrank hposition (String.not_le.1 hge))
      · exact .inr (.inr (.key hrank.symm hposition.symm (String.not_le.1 hle)))
    · cases ha : a.position with
      | none =>
        cases hb : b.position with
        | none => exact absurd (ha.trans hb.symm) hposition
        | some j => exact .inr (.inr (.position hrank.symm hb (by simp [ha])))
      | some i =>
        cases hb : b.position with
        | none => exact .inl (.position hrank ha (by simp [hb]))
        | some j =>
          have hne : i ≠ j := fun h => hposition (by rw [ha, hb, h])
          rcases Nat.lt_or_gt_of_ne hne with hlt | hlt
          · exact .inl (.position hrank ha (by simpa [hb] using hlt))
          · exact .inr (.inr (.position hrank.symm hb (by simpa [ha] using hlt)))
  · exact .inr (.inr (.type hrank))

theorem le_refl (a : DeclarationOrder) : a.le a = true := by
  unfold le
  cases a.position <;> simp

theorem Before.le (h : Before a b) : a.le b = true := by
  unfold DeclarationOrder.le
  cases h with
  | type rank => simp [rank, Nat.ne_of_lt rank]
  | position rank known later =>
    cases hb : b.position with
    | none => simp [rank, known]
    | some j => simp [rank, known, later j hb, Nat.ne_of_lt (later j hb)]
  | key rank same key =>
    have hle := String.not_lt.1 fun h => String.lt_irrefl _ (String.lt_trans key h)
    cases hb : b.position <;> simp [rank, same, hb, hle]

theorem Before.not_le (h : Before a b) : b.le a = false := by
  unfold DeclarationOrder.le
  cases h with
  | type rank => simp [Nat.ne_of_gt rank, Nat.le_of_lt rank]
  | position rank known later =>
    cases hb : b.position with
    | none => simp [rank, known]
    | some j => simp [rank, known, Nat.ne_of_gt (later j hb), Nat.le_of_lt (later j hb)]
  | key rank same key =>
    cases hb : b.position <;> simp [rank, same, hb, String.not_le.2 key]

theorem le_iff : a.le b = true ↔ Before a b ∨ a = b := by
  constructor
  · intro h
    rcases trichotomy a b with hab | rfl | hba
    · exact .inl hab
    · exact .inr rfl
    · rw [hba.not_le] at h
      cases h
  · rintro (hab | rfl)
    · exact hab.le
    · exact le_refl a

theorem le_trans (hab : a.le b = true) (hbc : b.le c = true) : a.le c = true := by
  rw [le_iff] at hab hbc ⊢
  obtain hab | rfl := hab
  · obtain hbc | rfl := hbc
    · exact .inl (hab.trans hbc)
    · exact .inl hab
  · exact hbc

theorem le_total (a b : DeclarationOrder) : a.le b = true ∨ b.le a = true := by
  rcases trichotomy a b with hab | rfl | hba
  · exact .inl hab.le
  · exact .inl (le_refl a)
  · exact .inr hba.le

end DeclarationOrder

theorem key_declarationOrder (p : Program) (f : FieldUse) : (declarationOrder p f).key = f.key := by
  unfold declarationOrder
  split <;> rfl

theorem insertOrdered_eq (le : α → α → Bool) (x : α) (xs : List α) :
    insertOrdered le x xs = xs.orderedInsert (fun a b => le a b = true) x := by
  induction xs with
  | nil => rfl
  | cons y ys ih => rw [insertOrdered, orderedInsert_cons, ih]

theorem sortBy_eq (le : α → α → Bool) (xs : List α) :
    sortBy le xs = xs.insertionSort (fun a b => le a b = true) := by
  induction xs with
  | nil => rfl
  | cons x xs ih =>
    rw [insertionSort_cons, ← ih, ← insertOrdered_eq]
    rfl

theorem pairwise_staticUses (p : Program) (uses : List FieldUse) :
    (staticUses p uses).Pairwise fun f g =>
      (declarationOrder p f).le (declarationOrder p g) = true := by
  let r : DeclarationOrder × FieldUse → DeclarationOrder × FieldUse → Prop :=
    fun a b => a.1.le b.1 = true
  have : Std.Total r := ⟨fun a b => le_total a.1 b.1⟩
  have : IsTrans _ r := ⟨fun a b c => le_trans⟩
  unfold staticUses
  rw [pairwise_map, sortBy_eq]
  refine (pairwise_insertionSort r _).imp_of_mem fun {a b} ha hb hle => ?_
  obtain ⟨f, -, rfl⟩ := mem_map.1 ((mem_insertionSort r).1 ha)
  obtain ⟨g, -, rfl⟩ := mem_map.1 ((mem_insertionSort r).1 hb)
  exact hle

/-! ## The slots of the fields -/

/-- The static field of a use: all but its offset. -/
structure Holds (p : Program) (f : FieldUse) (s : StaticField) : Prop where
  key : s.key = f.key
  name : s.name = f.name
  type : s.type = f.type
  host : s.host = f.host
  tag : (Storage.ofType p f.type).map (·.tag) = .ok s.tag
  descriptor : s.descriptor = none

/-- The fields stand in declaration order, and the static region has a slot for each of them, end to
end. -/
structure Arranged (p : Program) (fields : List FieldUse) (t : LayoutTable) : Prop where
  ordered : fields.Pairwise fun f g => (declarationOrder p f).Before (declarationOrder p g)
  statics : List.Forall₂ (Holds p) fields t.statics.toList
  tiled : t.staticSlots.Tiled

theorem Arranged.empty (p : Program) : Arranged p [] {} := ⟨.nil, .nil, AreaSlots.Tiled.empty⟩

theorem Holds.ext {f : FieldUse} {s s' : StaticField} (h : Holds p f s) (h' : Holds p f s')
    (hoffset : s.offset = s'.offset) : s = s' := by
  have htag : s.tag = s'.tag := Except.ok.inj (h.tag.symm.trans h'.tag)
  obtain ⟨key, name, offset, tag, type, host, descriptor⟩ := s
  obtain ⟨key', name', offset', tag', type', host', descriptor'⟩ := s'
  simp only [StaticField.mk.injEq]
  exact ⟨h.key.trans h'.key.symm, h.name.trans h'.name.symm, hoffset, htag,
    h.type.trans h'.type.symm, h.host.trans h'.host.symm, h.descriptor.trans h'.descriptor.symm⟩

theorem tags_of_holds (h : List.Forall₂ (Holds p) fields ss)
    (h' : List.Forall₂ (Holds p) fields ss') : ss.map (·.tag) = ss'.map (·.tag) := by
  induction h generalizing ss' with
  | nil => cases h'; rfl
  | cons hs _ ih =>
    cases h' with
    | cons hs' hrest =>
      rw [map_cons, map_cons, ih hrest, Except.ok.inj (hs.tag.symm.trans hs'.tag)]

theorem eq_of_holds (h : List.Forall₂ (Holds p) fields ss) (h' : List.Forall₂ (Holds p) fields ss')
    (hoffsets : ss.map (·.offset.toNat) = ss'.map (·.offset.toNat)) : ss = ss' := by
  induction h generalizing ss' with
  | nil => cases h'; rfl
  | cons hs _ ih =>
    cases h' with
    | cons hs' hrest =>
      simp only [map_cons, cons.injEq] at hoffsets
      rw [hs.ext hs' (UInt16.toNat_inj.1 hoffsets.1), ih hrest hoffsets.2]

theorem Arranged.unique {t t' : LayoutTable} (h : Arranged p fields t) (h' : Arranged p fields t') :
    t.statics = t'.statics ∧ t.staticSize = t'.staticSize := by
  have hsizes : t.staticSlots.places.map (·.tag.slotSize) =
      t'.staticSlots.places.map (·.tag.slotSize) := by
    have htags := congrArg (map Tag.slotSize) (tags_of_holds h.statics h'.statics)
    simp only [map_map] at htags
    simp only [staticSlots, map_map]
    exact htags
  have hoffsets : t.statics.toList.map (·.offset.toNat) = t'.statics.toList.map (·.offset.toNat) := by
    have heq := h.tiled.offsets.trans ((congrArg (placements 0) hsizes).trans h'.tiled.offsets.symm)
    simp only [staticSlots, map_map] at heq
    exact heq
  refine ⟨Array.toList_inj.1 (eq_of_holds h.statics h'.statics hoffsets), ?_⟩
  exact h.tiled.size.trans ((congrArg total hsizes).trans h'.tiled.size.symm)

theorem eq_of_ordered {fields' : List FieldUse}
    (h : fields.Pairwise fun f g => (declarationOrder p f).Before (declarationOrder p g))
    (h' : fields'.Pairwise fun f g => (declarationOrder p f).Before (declarationOrder p g))
    (hsame : ∀ f, f ∈ fields ↔ f ∈ fields') : fields = fields' := by
  have hnodup : ∀ {gs : List FieldUse}, gs.Pairwise (fun f g =>
      (declarationOrder p f).Before (declarationOrder p g)) → gs.Nodup := by
    intro gs hgs
    refine hgs.imp fun {f g} hfg heq => ?_
    subst heq
    exact DeclarationOrder.Before.irrefl _ hfg
  exact List.Perm.eq_of_pairwise (fun f g _ _ hfg hgf => absurd hgf hfg.asymm) h h'
    ((perm_ext_iff_of_nodup (hnodup h) (hnodup h')).2 hsame)

section

variable {uses : List FieldUse} {t t' : LayoutTable} {f : FieldUse}

theorem Arranged.addStatic (h : Arranged p fields t) (hkeys : ∀ g ∈ fields, g.key = f.key → g = f)
    (hle : ∀ g ∈ fields, (declarationOrder p g).le (declarationOrder p f) = true)
    (hadd : LayoutTable.addStatic p t f = .ok t') :
    f ∈ fields ∧ t' = t ∨ Arranged p (fields ++ [f]) t' := by
  obtain ⟨s, hfound, rfl⟩ | ⟨hnone, -, storage, offset, hstorage, hoffset, rfl⟩ := addStatic_ok hadd
  · obtain ⟨hs, hkey⟩ := staticField?_some hfound
    obtain ⟨g, hg, hheld⟩ := forall₂_mem_right h.statics s (Array.mem_toList_iff.2 hs)
    have hsame := hkeys g hg (hheld.key.symm.trans hkey)
    exact .inl ⟨hsame ▸ hg, rfl⟩
  · refine .inr ⟨?_, ?_, ?_⟩
    · refine pairwise_append.2 ⟨h.ordered, pairwise_singleton _ _, fun g hg f' hf' => ?_⟩
      rw [mem_singleton] at hf'
      rw [hf']
      obtain hbefore | hsame := le_iff.1 (hle g hg)
      · exact hbefore
      · -- fields at one place have one key, and that key would be known
        obtain ⟨s, hs, hheld⟩ := forall₂_mem_right h.statics.flip g hg
        have hkey : g.key = f.key := by
          rw [← key_declarationOrder p g, ← key_declarationOrder p f, hsame]
        exact absurd (hheld.key.trans hkey) (staticField?_none hnone s (Array.mem_toList_iff.1 hs))
    · rw [Array.toList_push]
      refine rel_append h.statics (.cons ⟨rfl, rfl, rfl, rfl, ?_, rfl⟩ .nil)
      rw [hstorage]
      rfl
    · have hsnoc := h.tiled.snoc (Storage.isDeclared_of_ofType hstorage)
      simp only [staticSlots, Array.toList_push, map_append, map_cons, map_nil,
        word16?_toNat hoffset]
      exact hsnoc

theorem arranged_of_foldlM (hkeys : ∀ f ∈ uses, ∀ g ∈ uses, f.key = g.key → f = g)
    (hsorted : uses.Pairwise fun f g => (declarationOrder p f).le (declarationOrder p g) = true)
    (h : uses.foldlM (LayoutTable.addStatic p) {} = .ok t) :
    ∃ fields, (∀ f, f ∈ fields ↔ f ∈ uses) ∧ Arranged p fields t := by
  refine except_foldlM_ok (fun done t => (∀ f ∈ done, ∀ g ∈ done, f.key = g.key → f = g) →
      done.Pairwise (fun f g => (declarationOrder p f).le (declarationOrder p g) = true) →
      ∃ fields, (∀ f, f ∈ fields ↔ f ∈ done) ∧ Arranged p fields t) ?_
    (fun _ _ => ⟨[], fun _ => Iff.rfl, .empty p⟩) h hkeys hsorted
  intro done t f t' hdone hadd hkeys hsorted
  obtain ⟨hsorted, -, hle⟩ := pairwise_append.1 hsorted
  have hlast : f ∈ done ++ [f] := mem_append_right _ (mem_singleton_self f)
  obtain ⟨fields, hmem, harranged⟩ := hdone (fun g hg g' hg' =>
    hkeys g (mem_append_left _ hg) g' (mem_append_left _ hg')) hsorted
  obtain ⟨hf, rfl⟩ | hnew := harranged.addStatic
    (fun g hg => hkeys g (mem_append_left _ ((hmem g).1 hg)) f hlast)
    (fun g hg => hle g ((hmem g).1 hg) f (mem_singleton_self f)) hadd
  · refine ⟨fields, fun g => ?_, harranged⟩
    rw [mem_append, mem_singleton, hmem]
    exact ⟨.inl, fun h => h.elim id fun h => h ▸ (hmem f).1 hf⟩
  · refine ⟨fields ++ [f], fun g => ?_, hnew⟩
    rw [mem_append, mem_append, hmem]

theorem arranged_of_build {roots : List TypeRef}
    (hkeys : ∀ f ∈ uses, ∀ g ∈ uses, f.key = g.key → f = g) (h : build p uses roots = .ok t) :
    ∃ fields, (∀ f, f ∈ fields ↔ f ∈ uses ∧ f.inStaticRegion = true) ∧ Arranged p fields t := by
  obtain ⟨region, hregion, hstatics, hsize⟩ := build_ok h
  obtain ⟨fields, hmem, harranged⟩ := arranged_of_foldlM (fun f hf g hg =>
    hkeys f (mem_staticUses.1 hf).1 g (mem_staticUses.1 hg).1) (pairwise_staticUses p uses) hregion
  have hslots : t.staticSlots = region.staticSlots := by
    unfold staticSlots
    rw [hstatics, hsize]
  exact ⟨fields, fun f => (hmem f).trans mem_staticUses, harranged.ordered,
    hstatics ▸ harranged.statics, hslots ▸ harranged.tiled⟩

end

/-- **The static region depends on the set of fields in use alone.** Whatever the order of the uses,
the number of times that each is listed and the classes that are laid out, it is the same; it has one
slot for each field in use that is static or shared with the host, in declaration order and end to
end from the start of the region. -/
theorem statics_of_uses {p : Program} {uses uses' : List FieldUse} {roots roots' : List TypeRef}
    {t t' : LayoutTable} (hkeys : ∀ f ∈ uses, ∀ g ∈ uses, f.key = g.key → f = g)
    (hsame : ∀ f, f ∈ uses ↔ f ∈ uses') (h : build p uses roots = .ok t)
    (h' : build p uses' roots' = .ok t') :
    t.statics = t'.statics ∧ t.staticSize = t'.staticSize ∧
      ∃ fields, (∀ f, f ∈ fields ↔ f ∈ uses ∧ f.inStaticRegion = true) ∧ Arranged p fields t := by
  obtain ⟨fields, hmem, harranged⟩ := arranged_of_build hkeys h
  obtain ⟨fields', hmem', harranged'⟩ := arranged_of_build (fun f hf g hg =>
    hkeys f ((hsame f).2 hf) g ((hsame g).2 hg)) h'
  have heq : fields' = fields := eq_of_ordered harranged'.ordered harranged.ordered fun f => by
    rw [hmem', hmem, hsame]
  obtain ⟨hstatics, hsize⟩ := harranged.unique (heq ▸ harranged')
  exact ⟨hstatics, hsize, fields, hmem, harranged⟩

/-- A generic type and one whose fields are shared with the host. -/
def counters : Program where
  types := #[
    { name := "Counter", genericParams := 1
      fields := [⟨"limit", .primitive .i16, true⟩, ⟨"count", .primitive .i32, true⟩] },
    { name := "Panel", isHostSurface := true
      fields := [⟨"level", .primitive .i32, false⟩] }]

/-- Uses of both: two instantiations of the generic type, and a name that it does not declare. -/
def counterUses : List FieldUse :=
  let field (key name : String) (declaring type : TypeRef) (host : Bool) : FieldUse :=
    { key, name, declaring, type, isStatic := !host, host }
  let flags : TypeRef := .named ⟨0⟩ [.primitive .bool]
  let bytes : TypeRef := .named ⟨0⟩ [.primitive .u8]
  [ field "Panel::level" "level" (.named ⟨1⟩ []) (.primitive .i32) true,
    field "Counter<flag>::extra" "extra" flags (.primitive .bool) false,
    field "Counter<flag>::count" "count" flags (.primitive .i32) false,
    field "Counter<byte>::count" "count" bytes (.primitive .i32) false,
    field "Counter<byte>::limit" "limit" bytes (.primitive .i16) false ]

/-- Listed twice and backwards, they have the same region. -/
theorem counter_statics : ∃ t t', build counters counterUses [] = .ok t ∧
    build counters (counterUses.reverse ++ counterUses) [.named ⟨1⟩ []] = .ok t' ∧
    t'.statics.toList.map (fun s => (s.key, s.offset)) =
      [("Counter<byte>::limit", 0), ("Counter<byte>::count", 3), ("Counter<flag>::count", 8),
        ("Counter<flag>::extra", 13), ("Panel::level", 15)] ∧
    t.statics = t'.statics ∧ t.staticSize = t'.staticSize := by
  have hlist : (build counters counterUses []).toOption.map
      (fun t => t.statics.toList.map fun s => (s.key, s.offset)) =
      some [("Counter<byte>::limit", 0), ("Counter<byte>::count", 3), ("Counter<flag>::count", 8),
        ("Counter<flag>::extra", 13), ("Panel::level", 15)] := by decide +kernel
  have hagain : (build counters (counterUses.reverse ++ counterUses)
      [.named ⟨1⟩ []]).toOption.isSome = true := by decide +kernel
  cases ht : build counters counterUses [] with
  | error e => simp [ht, Except.toOption] at hlist
  | ok t =>
    cases ht' : build counters (counterUses.reverse ++ counterUses) [.named ⟨1⟩ []] with
    | error e => simp [ht', Except.toOption] at hagain
    | ok t' =>
      have hsame : ∀ f, f ∈ counterUses ↔ f ∈ counterUses.reverse ++ counterUses := by
        intro f
        rw [mem_append, mem_reverse, or_self]
      obtain ⟨hstatics, hsize, -⟩ := statics_of_uses (by decide +kernel) hsame ht ht'
      rw [ht] at hlist
      exact ⟨t, t', rfl, rfl, hstatics ▸ Option.some.inj hlist, hstatics, hsize⟩

end DeviceCode.LayoutTable
