import DeviceCode.Proofs.Monomorphic
import DeviceCode.Proofs.Nesting
import DeviceCode.Proofs.TypeTables

/-!
# Laying out classes and building descriptors end

A class is marked before its base and the structures that it embeds are laid out, so there is one key
less with every class that is begun (`LayoutTable.unentered`), also where bases form a cycle or a
structure embeds itself. The id of a descriptor is reserved before its parts are built: what is left are
the keys of the parts of a type and of the types that the program names, and the ids
(`TypeTables.room`). With more nesting than that `alike_ensureClass` and `alike_ensureWithin` say that
the bound does not matter.
-/

namespace DeviceCode

open DescriptorTable

open AgreeAt

open TypeRef

open List

variable {p : Program} {id : TypeId} {d : TypeDef} {type : TypeRef} {types : List TypeRef}
  {key : DescriptorKey} {keys : Finset DescriptorKey}

/-! ## Layouts -/

namespace LayoutTable

/-- The class has a layout, or it is being laid out. -/
def Entered (t : LayoutTable) (key : String) : Prop := t.classId? key ≠ none ∨ key ∈ t.inProgress

instance (t : LayoutTable) : DecidablePred t.Entered := fun _ => inferInstanceAs (Decidable (_ ∨ _))

/-- The keys of the types of a program. -/
def typeKeys (p : Program) : Finset String := (p.types.toList.map (·.name)).toFinset

/-- The number of types of the program whose layout has not been begun. -/
def unentered (p : Program) (t : LayoutTable) : Nat := unseen (typeKeys p) t.Entered

theorem mem_typeKeys (hd : p.typeDef? id = some d) : p.fullName (.named id []) ∈ typeKeys p := by
  rw [Program.fullName_named hd]
  exact mem_toFinset.2 (mem_map.2
    ⟨d, Array.mem_toList_iff.2 (Array.mem_of_getElem? hd), rfl⟩)

theorem card_typeKeys_le (p : Program) : (typeKeys p).card ≤ p.types.size := by
  refine (toFinset_card_le _).trans ?_
  simp

theorem unentered_le_size (p : Program) (t : LayoutTable) : unentered p t ≤ p.types.size :=
  unseen_le_card.trans (card_typeKeys_le p)

/-- The fields in use have types without arguments. -/
def Monomorphic (t : LayoutTable) : Prop := ∀ e ∈ t.ownFields, e.2.type.isMonomorphic

theorem unentered_mark {t : LayoutTable} (hd : p.typeDef? id = some d)
    (hid : t.classId? (p.fullName (.named id [])) = none)
    (hkey : p.fullName (.named id []) ∉ t.inProgress) :
    unentered p { t with inProgress := p.fullName (.named id []) :: t.inProgress } <
      unentered p t := by
  refine unseen_lt (fun key hkey => hkey.imp_right (mem_cons_of_mem _)) (mem_typeKeys hd) ?_
    (.inr mem_cons_self)
  exact fun hentered => hentered.elim (fun h => h hid) hkey

theorem unentered_finish (p : Program) (t : LayoutTable) (c : ClassLayout) :
    unentered p { t with classes := t.classes.push c, inProgress := t.inProgress.erase c.key } ≤
      unentered p t := by
  refine unseen_le fun key hkey => ?_
  by_cases hsame : key = c.key
  · exact .inl (by simp [classId?, hsame, Array.findIdx?_push])
  · refine hkey.imp (fun hid => ?_) (mem_erase_of_ne hsame).2
    simp only [classId?, ne_eq, Array.findIdx?_eq_none_iff, Array.mem_push] at hid ⊢
    exact fun hnone => hid fun c' hc' => hnone c' (.inl hc')

/-- The computations agree on tables of monomorphic fields with less than `n` classes to be begun. -/
abbrev Alike (p : Program) (n : Nat) {α : Type} (x y : LayoutM α) : Prop :=
  Agree CompileError.Decided Monomorphic (unentered p) n x y

theorem parallel_alike (p : Program) (n : Nat) :
    Parallel CompileError.Decided fun x y => Alike p n x y := parallel_agree

section
variable {n : Nat} {ensure ensure' : TypeRef → LayoutM (Option Nat)}
  (he : ∀ {type}, type.isMonomorphic → Alike p n (ensure type) (ensure' type))
include he

omit he in
theorem monomorphic_ownUses (hp : p.Monomorphic) {t : LayoutTable} (ht : t.Monomorphic)
    (hd : p.typeDef? id = some d) (type : TypeRef) (key : String) :
    ∀ f ∈ t.ownUses type d [] key, f.type.isMonomorphic := by
  intro f hf
  unfold ownUses at hf
  split at hf
  · obtain ⟨g, hg, rfl⟩ := mem_map.1 hf
    dsimp only
    rw [substitute_nil]
    exact hp.field hd (mem_of_mem_filter hg)
  · obtain ⟨e, he, rfl⟩ := mem_map.1 hf
    exact ht e (mem_of_mem_filter he)

theorem alike_layOut (hp : p.Monomorphic) (htype : type.isMonomorphic) :
    Alike p (n + 1) (layOut p ensure type) (layOut p ensure' type) := by
  intro t ht hroom
  cases type with
  | named id args =>
    obtain rfl : args = [] := isMonomorphic_named.1 htype
    refine step (a := t) (t := t) rfl rfl (Nat.le_refl _) ?_
    cases hid : t.classId? (p.fullName (.named id [])) with
    | some known => exact agreeAt_pure ht
    | none =>
      cases hd : p.typeDef? id with
      | none => exact agreeAt_throw rfl
      | some d =>
        refine step (a := t) (t := t) rfl rfl (Nat.le_refl _) ?_
        split
        · exact agreeAt_pure ht
        · rename_i hclosed
          have hkey : p.fullName (.named id []) ∉ t.inProgress := fun hmem => by
            simp [hmem] at hclosed
          have hmark := unentered_mark hd hid hkey
          refine step (a := ⟨⟩)
            (t := { t with inProgress := p.fullName (.named id []) :: t.inProgress }) rfl rfl
            (Nat.le_of_lt hmark) ?_
          have hroom₁ := Nat.lt_of_lt_of_le hmark (Nat.le_of_lt_succ hroom)
          have hmono : Monomorphic { t with inProgress := p.fullName (.named id []) :: t.inProgress } := ht
          generalize { t with inProgress := p.fullName (.named id []) :: t.inProgress } = t₁
            at hmono hroom₁ ⊢
          -- the base comes first
          have hinherits : ∀ b, d.base.map (·.substitute []) = some b → b.isMonomorphic := by
            intro b hb
            obtain ⟨b', hb', rfl⟩ := Option.map_eq_some_iff.1 hb
            rw [substitute_nil]
            exact hp.base hd hb'
          have hbase := parallel_inherited (parallel_alike p n) (fun b hb => he (hinherits b hb)) t₁
            hmono hroom₁
          refine hbase.bind fun start t₂ hstart => ?_
          obtain ⟨hmono₂, hroom₂⟩ := hbase.ok hstart
          refine step (a := t₂) (t := t₂) rfl rfl (Nat.le_refl _) ?_
          -- then its own fields, one after the other
          have hown := (parallel_alike p n).foldlM
            (fun e f hf => parallel_place (p := p) (parallel_alike p n) e
            (he (monomorphic_ownUses hp hmono₂ hd (.named id []) (p.fullName (.named id [])) f hf)))
            start t₂ hmono₂ (Nat.lt_of_le_of_lt hroom₂ hroom₁)
          refine hown.bind fun extent t₃ hextent => ?_
          obtain ⟨hmono₃, -⟩ := hown.ok hextent
          cases word16? extent.size with
          | none => exact agreeAt_throw rfl
          | some size =>
            refine step (a := t₃) (t := t₃) rfl rfl (Nat.le_refl _) ?_
            refine step (a := ⟨⟩) rfl rfl (unentered_finish p t₃ _) ?_
            exact agreeAt_pure hmono₃
  | _ => exact agreeAt_pure ht

end

/-- **Laying out a class does not depend on the bound** on the nesting, if it is above the number of
types whose layout has not been begun. -/
theorem alike_ensureClass (hp : p.Monomorphic) : ∀ {k n n' : Nat}, k ≤ n → k ≤ n' →
    ∀ {type : TypeRef}, type.isMonomorphic → Alike p k (ensureClass p n type) (ensureClass p n' type)
  | 0, _, _, _, _, _, _ => fun _ _ hroom => absurd hroom (Nat.not_lt_zero _)
  | k + 1, n + 1, n' + 1, hn, hn', _, htype =>
    alike_layOut (alike_ensureClass hp (by omega) (by omega)) hp htype

theorem proceeds_ensureClass (hp : p.Monomorphic) (htype : type.isMonomorphic) :
    Proceeds CompileError.Decided Monomorphic
      (ensureClass p (nestingBound p) type) := by
  have hbound : p.types.size + 1 ≤ nestingBound p := by simp [nestingBound]
  exact (alike_ensureClass hp hbound hbound htype).proceeds fun t _ =>
    Nat.lt_succ_of_le (unentered_le_size p t)

theorem mem_ownFields {e : String × FieldUse} : ∀ {uses : List FieldUse}
    {own : List (String × FieldUse)}, e ∈ uses.foldl (addOwnField p) own → e ∈ own ∨ e.2 ∈ uses
  | [], _, h => .inl h
  | f :: uses, own, h => by
    rw [foldl_cons] at h
    obtain h | h := mem_ownFields h
    · unfold addOwnField at h
      dsimp only at h
      split at h
      · exact .inl h
      · rcases mem_append.1 h with h | h
        · exact .inl h
        · rw [mem_singleton.1 h]
          exact .inr mem_cons_self
    · exact .inr (mem_cons_of_mem f h)

section
variable (hp : p.Monomorphic) {uses : List FieldUse} {roots : List TypeRef}
  (huses : ∀ f ∈ uses, f.declaring.isMonomorphic ∧ f.type.isMonomorphic)
  (hroots : ∀ t ∈ roots, t.isMonomorphic)
include hp huses hroots

theorem build_monomorphic :
    Decides CompileError.Decided (build p uses roots) ∧ ∀ t, build p uses roots = .ok t → t.Monomorphic := by
  have h := parallel_proceeds (E := CompileError.Decided) (I := Monomorphic)
  have classes : Proceeds CompileError.Decided Monomorphic
      ((roots ++ (uses.filter (!·.inStaticRegion)).map (·.declaring)).forM fun c =>
        discard (ensureClass p (nestingBound p) c)) := by
    refine h.forM fun c hc => h.bind (proceeds_ensureClass hp ?_) fun _ => h.pure _
    rcases mem_append.1 hc with hc | hc
    · exact hroots c hc
    · obtain ⟨f, hf, rfl⟩ := mem_map.1 hc
      exact (huses f (mem_of_mem_filter hf)).1
  have start : ∀ statics : LayoutTable, Monomorphic { statics with
      ownFields := (uses.filter (!·.inStaticRegion)).foldl (addOwnField p) [] } := by
    intro statics e he
    rcases mem_ownFields he with he | he
    · cases he
    · exact (huses e.2 (mem_of_mem_filter he)).2
  constructor
  · refine (decides_foldlM (decides_addStatic p) _ _).bind fun statics => ?_
    dsimp only
    split
    · exact decides_pure _
    · rename_i e t hrun
      exact decides_error (classes.error (start statics) hrun)
  · intro t ht
    obtain ⟨statics, -, ht⟩ := except_bind_ok.1 ht
    dsimp only at ht
    split at ht
    · rename_i hrun
      rw [except_pure_ok] at ht
      exact ht ▸ classes.ok (start statics) hrun
    · cases ht

end

end LayoutTable

/-! ## Descriptors -/

namespace TypeRef

/-- The type, and all that it is an array of or points to. -/
def parts : TypeRef → List TypeRef
  | array t => array t :: t.parts
  | byRef t => byRef t :: t.parts
  | pointer t => pointer t :: t.parts
  | t => [t]

theorem mem_parts_self (t : TypeRef) : t ∈ t.parts := by
  cases t <;> simp [parts]

theorem parts_subset {t : TypeRef} : ∀ {u : TypeRef}, t ∈ u.parts → t.parts ⊆ u.parts
  | void, h | primitive _, h | string, h | object, h | param _, h | named _ _, h => by
    rw [parts, mem_singleton] at h
    · rw [h]
      exact List.Subset.refl _
    all_goals simp
  | array u, h | byRef u, h | pointer u, h => by
    rw [parts, mem_cons] at h
    rcases h with rfl | h
    · exact List.Subset.refl _
    · exact subset_cons_of_subset _ (parts_subset h)

theorem mem_parts_of_pointee {t : TypeRef} : ∀ {u : TypeRef}, t ∈ u.pointee.parts → t ∈ u.parts
  | byRef u, h | pointer u, h => by
    exact mem_cons_of_mem _ (mem_parts_of_pointee (u := u) h)
  | void, h | primitive _, h | string, h | object, h | param _, h | named _ _, h | array _, h => h

theorem isMonomorphic_pointee : ∀ {u : TypeRef}, u.isMonomorphic → u.pointee.isMonomorphic
  | byRef u, h | pointer u, h => isMonomorphic_pointee (u := u) h
  | void, h | primitive _, h | string, h | object, h | param _, h | named _ _, h | array _, h => h

end TypeRef

namespace TypeTables

/-- The keys of the parts of the types. -/
def descriptorKeys (p : Program) (types : List TypeRef) : Finset DescriptorKey :=
  ((types.flatMap TypeRef.parts).filterMap fun t => (DescriptorKey.ofType p t).toOption).toFinset

/-- What is left for new descriptors: ids, and keys out of `keys`. -/
def room (keys : Finset DescriptorKey) (s : TypeTables) : Nat :=
  min (65535 - s.descriptors.size) (unseen keys fun key => s.descriptors.idOf? key ≠ none)

theorem mem_descriptorKeys {t u : TypeRef} (ht : t ∈ types) (hu : u ∈ t.parts)
    (hkey : DescriptorKey.ofType p u = .ok key) : key ∈ descriptorKeys p types :=
  mem_toFinset.2 (mem_filterMap.2 ⟨u, mem_flatMap.2 ⟨t, ht, hu⟩, by rw [hkey]; rfl⟩)

theorem room_le_card (keys : Finset DescriptorKey) (s : TypeTables) : room keys s ≤ keys.card :=
  (Nat.min_le_right _ _).trans unseen_le_card

theorem room_lt (keys : Finset DescriptorKey) (s : TypeTables) : room keys s < 65537 := by
  unfold room
  omega

theorem room_reserve {s : TypeTables} (hsize : s.descriptors.size < 65535) (hkey : key ∈ keys)
    (hnew : s.descriptors.idOf? key = none) :
    room keys (s.reserved key) < room keys s := by
  have hkeys : unseen keys (fun k => (s.reserved key).descriptors.idOf? k ≠ none) <
      unseen keys fun k => s.descriptors.idOf? k ≠ none := by
    refine unseen_lt (fun k hk => ?_) hkey (not_not.2 hnew) ?_
    · simp only [reserved, idOf?, ne_eq, Option.map_eq_none_iff, Array.findIdx?_eq_none_iff,
        Array.mem_push] at hk ⊢
      exact fun hnone => hk fun e he => hnone e (.inl he)
    · simp [reserved, idOf?, Array.findIdx?_push]
  have hids : (s.reserved key).descriptors.size = s.descriptors.size + 1 := by
    simp [reserved, size]
  unfold room
  omega

theorem room_fill (keys : Finset DescriptorKey) (s : TypeTables) (id : Nat) (d : Descriptor) :
    room keys (s.filled id d) ≤ room keys s := by
  have hkeys : ∀ k, s.descriptors.idOf? k ≠ none → (s.filled id d).descriptors.idOf? k ≠ none := by
    intro k hk
    simp only [idOf?, ne_eq, Option.map_eq_none_iff, Array.findIdx?_eq_none_iff] at hk ⊢
    refine fun hnone => hk fun e he => ?_
    obtain ⟨i, hi⟩ := Array.mem_iff_getElem?.1 he
    have hmodified : (s.filled id d).descriptors.entries[i]? =
        some (if id = i then { e with descriptor := some d } else e) := by
      rw [filled, Array.getElem?_modify, hi]
      split <;> rfl
    have hkey := hnone _ (Array.mem_of_getElem? hmodified)
    split at hkey <;> exact hkey
  have hseen : unseen keys (fun k => (s.filled id d).descriptors.idOf? k ≠ none) ≤
      unseen keys fun k => s.descriptors.idOf? k ≠ none := unseen_le hkeys
  have hsize : (s.filled id d).descriptors.size = s.descriptors.size := by simp [filled, size]
  unfold room
  omega

/-- The computations agree on tables of monomorphic fields with room for less than `n` descriptors. -/
abbrev Alike (keys : Finset DescriptorKey) (n : Nat) {α : Type} (x y : TypeTablesM α) : Prop :=
  Agree CompileError.Decided (fun s => s.layout.Monomorphic) (room keys) n x y

theorem parallel_alike (keys : Finset DescriptorKey) (n : Nat) :
    Parallel CompileError.Decided fun x y => Alike keys n x y := parallel_agree

theorem alike_onLayout {n : Nat} {α : Type} {x : LayoutM α}
    (hx : Proceeds CompileError.Decided LayoutTable.Monomorphic x) :
    Alike keys n (onLayout x) (onLayout x) := by
  intro s hs _
  refine ⟨rfl, fun {a s'} hok => ?_, fun {e s'} herror => ?_⟩
  · obtain ⟨t, hr, rfl⟩ := onLayout_ok.1 hok
    exact ⟨hx.ok hs hr, Nat.le_refl _⟩
  · obtain ⟨t, hr, -⟩ := onLayout_error.1 herror
    exact hx.error hs hr

section
variable (hp : p.Monomorphic) (hrefs : p.typeRefs ⊆ types) {n : Nat}
  {ensure ensure' : TypeRef → TypeTablesM UInt16}
  (he : ∀ {t u}, u ∈ types → t ∈ u.parts → t.isMonomorphic → Alike (descriptorKeys p types) n
    (ensure t) (ensure' t))
include hp hrefs he

/-- The parts of a descriptor are those of parts of its type, or of the fields of a structure. -/
theorem alike_build {u : TypeRef} (hu : u ∈ types) (hpart : type ∈ u.parts)
    (htype : type.isMonomorphic) (key : DescriptorKey) :
    Alike (descriptorKeys p types) n (build p ensure type key) (build p ensure' type key) := by
  have hpointee := isMonomorphic_pointee htype
  refine parallel_build (parallel_alike (descriptorKeys p types) n)
    (alike_onLayout (LayoutTable.proceeds_ensureClass hp hpointee)) (fun element helement => ?_)
    (fun id args d f hnamed hd hf => ?_) key
  · rw [helement] at hpointee
    have hmem : element ∈ type.parts := mem_parts_of_pointee (by
      rw [helement]
      exact mem_cons_of_mem _ (mem_parts_self element))
    exact he hu (parts_subset hpart hmem) hpointee
  · rw [hnamed, isMonomorphic_named] at hpointee
    have hmem : f.type ∈ p.typeRefs := Program.mem_typeRefs_of_type hd (by
      simp only [TypeDef.typeRefs, mem_append, mem_map]
      exact .inr ⟨f, hf, rfl⟩)
    rw [hpointee, substitute_nil]
    exact he (hrefs hmem) (mem_parts_self _) (hp _ hmem)

end

theorem reserve_eq (key : DescriptorKey) (s : TypeTables) :
    reserve key s = if s.descriptors.size < 65535 then
      .ok s.descriptors.size.toUInt16 (s.reserved key)
    else .error (.limitExceeded "descriptor table" 65534) s := by
  refine (state_bind_of_ok (x := get) (a := s) (t := s) rfl _).trans ?_
  split <;> rfl

/-- **Building a descriptor does not depend on the bound** on the nesting, if it is above what is left
for new descriptors. -/
theorem alike_ensureWithin (hp : p.Monomorphic) (hrefs : p.typeRefs ⊆ types) :
    ∀ {k n n' : Nat}, k ≤ n → k ≤ n' → ∀ {t u : TypeRef},
      u ∈ types → t ∈ u.parts → t.isMonomorphic →
      Alike (descriptorKeys p types) k (ensureWithin p n t) (ensureWithin p n' t)
  | 0, _, _, _, _, _, _, _, _, _ => fun _ _ hroom => absurd hroom (Nat.not_lt_zero _)
  | k + 1, n + 1, n' + 1, hn, hn', t, u, hu, ht, hmono => by
    intro s hs hroom
    have h := parallel_alike (descriptorKeys p types) (k + 1)
    refine (h.ofExcept (decides_descriptorKey p t) s hs hroom).bind fun key s₀ hfirst => ?_
    obtain ⟨hkey, rfl⟩ := state_ofExcept_ok.1 hfirst
    refine step (a := s) (t := s) rfl rfl (Nat.le_refl _) ?_
    cases hid : s.descriptors.idOf? key with
    | some id => exact agreeAt_pure hs
    | none =>
      by_cases hsize : s.descriptors.size < 65535
      · have hreserve := reserve_eq key s
        rw [if_pos hsize] at hreserve
        -- the id and its key are taken, so there is less left
        have hless := room_reserve hsize (mem_descriptorKeys hu ht hkey) hid
        refine step hreserve hreserve (Nat.le_of_lt hless) ?_
        have hbuild := alike_build hp hrefs (alike_ensureWithin hp hrefs
          (Nat.le_of_succ_le_succ hn) (Nat.le_of_succ_le_succ hn')) hu ht hmono key
          (s.reserved key) hs (Nat.lt_of_lt_of_le hless (Nat.le_of_lt_succ hroom))
        refine hbuild.bind fun d s₂ hd => ?_
        obtain ⟨hs₂, -⟩ := hbuild.ok hd
        refine step (a := ⟨⟩) rfl rfl (room_fill _ s₂ _ d) ?_
        exact agreeAt_pure hs₂
      · have hreserve := reserve_eq key s
        rw [if_neg hsize] at hreserve
        refine bind ⟨rfl, fun hok => ?_, fun herror => ?_⟩ fun a s₁ hok => ?_
        · rw [hreserve] at hok
          cases hok
        · rw [hreserve] at herror
          cases herror
          rfl
        · rw [hreserve] at hok
          cases hok

theorem proceeds_ensure (hp : p.Monomorphic) (htype : type.isMonomorphic) :
    Proceeds CompileError.Decided (fun s => s.layout.Monomorphic) (ensure p type) :=
  (alike_ensureWithin hp (subset_cons_self type p.typeRefs) (Nat.le_refl _) (Nat.le_refl _)
    mem_cons_self (mem_parts_self type) htype).proceeds fun s _ => room_lt _ s

end TypeTables

end DeviceCode
