import DeviceCode.Proofs.Image.Linked
import DeviceCode.Proofs.Machine.Decoded
import DeviceCode.Proofs.SlotLayout
import Mathlib.Data.List.Nodup

/-!
# The fields that are shared with the host

Three tables tell where a shared field is: the host map, the static table of the image and the
instructions that access the field. `HostAgrees` says that they tell the same. Main statement:
`host_agrees`, for every build in which no two of the accessed fields have the same key.
-/

namespace DeviceCode

open HostMap

open Piece

open ResolvedField

open Registry

open LayoutTable

open List

variable {f : FieldUse} {r : Registry} {m : CompiledMethod} {j : Nat} {t : LayoutTable}
  {uses : List FieldUse} {h : HostField} {c : BuildContext} {linked : Linked} {p : Program}

/-! ## Accessed fields -/

namespace Program

theorem resolveField_ok {f : FieldRef} {r : ResolvedField} (h : p.resolveField f = .ok r) :
    (p.typeDef? r.declaringId).bind (·.fields.find? (·.name == r.field.name)) = some r.field := by
  unfold resolveField at h
  split at h
  · rename_i r' hr
    cases h
    obtain ⟨hd, hf⟩ := findField_some hr
    have hname : r.field.name = f.name := by simpa using find?_some hf
    rw [hd, hname]
    exact hf
  · cases h

end Program

theorem Op.fieldUse?_some {typeArgs : List TypeRef} {op : Op}
    (h : op.fieldUse? p typeArgs = some f) : ∃ isStatic access ref resolved,
      op = .field isStatic access ref ∧
      p.resolveField { ref with owner := ref.owner.substitute typeArgs } = .ok resolved ∧
      f = resolved.use p isStatic := by
  cases op with
  | field isStatic access ref =>
    obtain ⟨resolved, hresolved, rfl⟩ := Option.map_eq_some_iff.1 h
    refine ⟨isStatic, access, ref, resolved, rfl, ?_, rfl⟩
    cases hr : p.resolveField { ref with owner := ref.owner.substitute typeArgs } with
    | ok resolved' =>
      rw [hr] at hresolved
      cases hresolved
      rfl
    | error e =>
      rw [hr] at hresolved
      cases hresolved
  | _ => simp [Op.fieldUse?] at h

namespace CompiledMethod

variable {p : Program} {m' : CompiledMethod} {j' : Nat} {f' : FieldUse}

theorem Accesses.same_field (h : m.Accesses p j f) (h' : m'.Accesses p j' f')
    (hdeclaring : f.declaring = f'.declaring) (hname : f.name = f'.name) :
    f.type = f'.type ∧ f.host = f'.host := by
  obtain ⟨_, -, hf⟩ := h
  obtain ⟨_, -, hf'⟩ := h'
  obtain ⟨_, _, _, resolved, -, hresolved, rfl⟩ := Op.fieldUse?_some hf
  obtain ⟨_, _, _, resolved', -, hresolved', rfl⟩ := Op.fieldUse?_some hf'
  have hfield := Program.resolveField_ok hresolved
  have hfield' := Program.resolveField_ok hresolved'
  simp only [use, declaringType, TypeRef.named.injEq] at hdeclaring hname
  obtain ⟨hid, hargs⟩ := hdeclaring
  rw [hid, hname, hfield', Option.some.injEq] at hfield
  simp [use, type, hid, hargs, hfield, and_self]

/-- The uses that a method makes of fields. -/
def fieldUses (p : Program) (m : CompiledMethod) : List FieldUse :=
  match (p.methodDef? m.method).bind (·.body) with
  | some body => body.code.toList.filterMap (·.op.fieldUse? p m.typeArgs)
  | none => []

theorem Accesses.mem_fieldUses (h : m.Accesses p j f) : f ∈ m.fieldUses p := by
  obtain ⟨op, hop, hf⟩ := h
  obtain ⟨body, hbody, hop⟩ := Option.bind_eq_some_iff.1 hop
  obtain ⟨i, hi, rfl⟩ := Option.map_eq_some_iff.1 hop
  rw [fieldUses, hbody]
  exact mem_filterMap.2 ⟨i, Array.mem_toList_iff.2 (Array.mem_of_getElem? hi), hf⟩

end CompiledMethod

namespace Registry

/-- Accessed fields that have one key are one field. -/
def keysApart (p : Program) (r : Registry) : Bool :=
  r.methods.all fun m => r.methods.all fun m' => (m.fieldUses p).all fun f =>
    (m'.fieldUses p).all fun f' =>
      f.key != f'.key || f.declaring == f'.declaring && f.name == f'.name

theorem keysApart_same (h : r.keysApart p = true) {m' : CompiledMethod}
    (hm : m ∈ r.methods) (hm' : m' ∈ r.methods) {j' : Nat} {f' : FieldUse} (hf : m.Accesses p j f)
    (hf' : m'.Accesses p j' f') (hkey : f.key = f'.key) : f.type = f'.type ∧ f.host = f'.host := by
  simp only [keysApart, Array.all_eq_true', all_eq_true] at h
  have hsame := h m hm m' hm' f hf.mem_fieldUses f' hf'.mem_fieldUses
  rw [hkey, bne_self_eq_false, Bool.false_or, Bool.and_eq_true, beq_iff_eq, beq_iff_eq] at hsame
  exact hf.same_field hf' hsame.1 hsame.2

end Registry

/-! ## The static region -/

/-- The types that the host understands. -/
inductive HostType (p : Program) : TypeRef → Prop
  | primitive (q : Primitive) : HostType p (.primitive q)
  | string : HostType p .string
  | array (q : Primitive) : HostType p (.array (.primitive q))
  | enumeration {id : TypeId} {args : List TypeRef} {d : TypeDef} {q : Primitive}
    (known : p.typeDef? id = some d) (kind : d.kind = .enumType q) : HostType p (.named id args)

namespace LayoutTable

theorem hostType_of_isHostType {t : TypeRef} (h : isHostType p t = true) :
    HostType p t := by
  unfold isHostType at h
  split at h
  · exact .primitive _
  · exact .string
  · exact .array _
  · split at h
    · rename_i hd
      exact .enumeration hd rfl
    · cases h
  · cases h

/-- The static fields are used, each under a key of its own, and the host understands those that are
shared with it. -/
structure Lists (p : Program) (uses : List FieldUse) (statics : List StaticField) : Prop where
  keys : (statics.map (·.key)).Nodup
  origin : ∀ s ∈ statics, ∃ f ∈ uses, f.key = s.key ∧ f.name = s.name ∧ f.type = s.type ∧
    f.host = s.host ∧ (s.host = true → isHostType p s.type = true)

theorem staticField?_none {key : String} (h : t.staticField? key = none) :
    ∀ s ∈ t.statics, s.key ≠ key := by
  rw [staticField?, Array.find?_eq_none] at h
  intro s hs hkey
  exact h s hs (by simpa using hkey)

theorem Lists.addStatic {t' : LayoutTable} (h : Lists p uses t.statics.toList)
    (hadd : LayoutTable.addStatic p t f = .ok t') : Lists p (uses ++ [f]) t'.statics.toList := by
  have horigin : ∀ s ∈ t.statics.toList, ∃ g ∈ uses ++ [f], g.key = s.key ∧ g.name = s.name ∧
      g.type = s.type ∧ g.host = s.host ∧ (s.host = true → isHostType p s.type = true) := by
    intro s hs
    obtain ⟨g, hg, hused⟩ := h.origin s hs
    exact ⟨g, mem_append_left _ hg, hused⟩
  obtain ⟨s, -, rfl⟩ | ⟨hnone, hhost, storage, offset, -, -, rfl⟩ := addStatic_ok hadd
  · exact ⟨h.keys, horigin⟩
  · rw [Array.toList_push]
    refine ⟨?_, fun s hs => ?_⟩
    · rw [map_append, map_singleton]
      refine nodup_append.2 ⟨h.keys, by simp, fun key hkey key' hkey' => ?_⟩
      rw [mem_singleton] at hkey'
      obtain ⟨s, hs, rfl⟩ := mem_map.1 hkey
      rw [hkey']
      exact staticField?_none hnone s (Array.mem_toList_iff.1 hs)
    · rcases mem_append.1 hs with hs | hs
      · exact horigin s hs
      · rw [mem_singleton] at hs
        subst hs
        exact ⟨f, mem_append_right _ (mem_singleton_self f), rfl, rfl, rfl, rfl, hhost⟩

theorem lists_of_build {roots : List TypeRef} (h : build p uses roots = .ok t) :
    Lists p uses t.statics.toList := by
  obtain ⟨region, hregion, hstatics, -⟩ := build_ok h
  have hlists : Lists p (staticUses p uses) region.statics.toList :=
    except_foldlM_ok (fun done t => Lists p done t.statics.toList)
      (fun _ _ _ _ ht hadd => ht.addStatic hadd) ⟨by simp, by simp⟩ hregion
  rw [hstatics]
  refine ⟨hlists.keys, fun s hs => ?_⟩
  obtain ⟨f, hf, hused⟩ := hlists.origin s hs
  exact ⟨f, (mem_staticUses.1 hf).1, hused⟩

theorem Lists.undescribed {statics statics' : List StaticField} (h : Lists p uses statics)
    (hstatics : statics'.map Registry.undescribed = statics.map Registry.undescribed) :
    Lists p uses statics' := by
  refine ⟨?_, fun s' hs' => ?_⟩
  · have hkeys := congrArg (map StaticField.key) hstatics
    rw [map_map, map_map] at hkeys
    change statics'.map StaticField.key = statics.map StaticField.key at hkeys
    rw [hkeys]
    exact h.keys
  · have hmem : Registry.undescribed s' ∈ statics.map Registry.undescribed :=
      hstatics ▸ mem_map_of_mem hs'
    obtain ⟨s, hs, hsame⟩ := mem_map.1 hmem
    simp only [Registry.undescribed, StaticField.mk.injEq] at hsame
    obtain ⟨hkey, hname, -, -, htype, hhost, -⟩ := hsame
    rw [← hkey, ← hname, ← htype, ← hhost]
    exact h.origin s hs

end LayoutTable

namespace Registry

/-- The first `n` static fields have the ids of their types. -/
def StaticIds (p : Program) (n : Nat) (s : TypeTables) : Prop :=
  ∀ (i : Nat) f, i < n → s.layout.statics[i]? = some f → ∃ key id,
    DescriptorKey.ofType p f.type = .ok key ∧ s.descriptors.idOf? key = some id ∧
      f.descriptor = some id

theorem StaticIds.completes {n : Nat} {s s' : TypeTables} (h : StaticIds p n s)
    (hs : TypeTables.Completes s s') : StaticIds p n s' := by
  intro i f hi hf
  rw [hs.layout.statics] at hf
  obtain ⟨key, id, hkey, hid, hdescriptor⟩ := h i f hi hf
  exact ⟨key, id, hkey, DescriptorTable.idOf?_mono hs.keys hid, hdescriptor⟩

theorem staticIds_of_statics {s : TypeTables} {u : Unit}
    (h : describeStatics p t.statics.toList { layout := t } = .ok u s) :
    StaticIds p t.statics.size s := by
  have start : Described 0 t { layout := t } :=
    ⟨fun e he => by simp at he, rfl, rfl, fun i f hi => by omega⟩
  refine (describeStatics_ok (P := fun n s => Described n t s ∧ StaticIds p n s)
    ⟨start, fun i f hi => by omega⟩ (fun n g s id s₁ hg hs hid => ?_) h).2
  have hgrown := TypeTables.leads_ensure p g.type _ _ _ hid
  have hdescribed := hs.1.completes hgrown
  refine ⟨hdescribed.set id, fun i f hi hf => ?_⟩
  simp only [setStaticDescriptor, Array.getElem?_modify] at hf
  split at hf
  · -- the type that was described is that of the entry
    rename_i hin
    subst hin
    obtain ⟨f', hf', rfl⟩ := Option.map_eq_some_iff.1 hf
    have hsame := congrArg (·[n]?) hdescribed.statics
    simp only [Array.getElem?_map, hf', hg, Option.map_some, Option.some.injEq, undescribed,
      StaticField.mk.injEq] at hsame
    obtain ⟨key, hkey, hid⟩ := TypeTables.idOf?_of_ensure hid
    exact ⟨key, id, by rw [hsame.2.2.2.2.1]; exact hkey, hid, rfl⟩
  · exact hs.2.completes hgrown i f (by omega) hf

theorem statics_of_link {r' : Registry} (hlink : link c r = .ok linked r') :
    ∃ r₁, bindSlots c r = .ok linked.iterations r₁ ∧
      LayoutTable.Lists c.program r₁.fields.toList linked.layout.statics.toList ∧
      LayoutTable.Serves c.program (r₁.fields.toList.filter (·.inStaticRegion)) linked.layout ∧
      StaticIds c.program linked.layout.statics.size ⟨linked.layout, linked.descriptors⟩ := by
  obtain ⟨r₁, s, s', hbind, -, htables, hfold, hlayout, hdescriptors, -⟩ := link_ok hlink
  obtain ⟨t, ht, hs, -⟩ := tables_ok htables
  obtain ⟨methods, hblock⟩ := (blocks_blockCallers r₁).rest
  have hdone : Described t.statics.size t s' ∧ StaticIds c.program t.statics.size s' := by
    refine state_foldlM_ok
      (fun _ s _ => Described t.statics.size t s ∧ StaticIds c.program t.statics.size s) ?_
      ⟨described_of_statics hs, staticIds_of_statics hs⟩ hfold
    intro done s f r s' r' hs hstep
    obtain ⟨value, hvalue, -, -⟩ := applyFixup_ok hstep
    have hgrown := leads_operandValue _ _ _ _ _ _ hvalue
    exact ⟨hs.1.completes hgrown, hs.2.completes hgrown⟩
  obtain ⟨hdescribed, hids⟩ := hdone
  have hsize : linked.layout.statics.size = t.statics.size := by
    have := congrArg Array.size hdescribed.statics
    rwa [Array.size_map, Array.size_map, ← hlayout] at this
  rw [hblock] at ht
  refine ⟨r₁, hbind, ?_, ?_, ?_⟩
  · refine (lists_of_build ht).undescribed ?_
    rw [hlayout, ← Array.toList_map, hdescribed.statics, Array.toList_map]
  · rw [hlayout]
    exact (serves_of_build ht).undescribed hdescribed.statics hdescribed.staticSize
  · rw [hsize, hlayout, hdescriptors]
    exact hids

/-! ## Instructions -/

section
variable {c : BuildContext} {start : MethodRef} {index : Nat} {r' : Registry} {linked : Linked}
  (hentry : compileEntry c start {} = .ok index r) (hlink : link c r = .ok linked r')
include hentry hlink

/-- **The bytes of an access to a shared field**: the flags, the offset of the field and the id of its
type. -/
theorem holds_host_access {i : Nat} {isStatic : Bool} {access : Access} {ref : FieldRef}
    (hm : r'.methods[i]? = some m) (hop : m.op? c.program j = some (.field isStatic access ref))
    (hf : (Op.field isStatic access ref).fieldUse? c.program m.typeArgs = some f)
    (hhost : f.host = true) :
    ∃ offset w id, m.offset? j = some offset ∧
      linked.layout.fieldOffset? f.key = some w ∧
      (∃ key, DescriptorKey.ofType c.program f.type = .ok key ∧
        linked.descriptors.idOf? key = some id) ∧
      ∀ code : Array UInt8, code.toList = m.code → Holds code offset
        ((Lowering.fieldOpcode access).byte :: (Opcode.fieldStatic ||| Opcode.fieldHost) ::
          (Word.bytes16 w ++ Word.bytes16 id)) := by
  obtain ⟨r₁, hbind, -, hmethods⟩ := methods_of_link hentry hlink
  obtain ⟨m₁, d, body, l, ops, chunks, status, value, hm₁, hc, hm', hinstalled⟩ :=
    hmethods i (Array.getElem?_eq_some_iff.1 hm).1
  cases hm.symm.trans hm'
  have haccess : m₁.Accesses c.program j f := ⟨_, hop, hf⟩
  have hsurveyed := (surveyed_of_link hentry hbind hlink).1 hm
  rw [CompiledMethod.op?_eq hinstalled.method hinstalled.source] at hop
  obtain ⟨instruction, hinstruction, hop⟩ := Option.map_eq_some_iff.1 hop
  obtain ⟨o, offset, ho, hsite, hoffset, hlowers⟩ := hinstalled.exists_op hinstruction
  -- the site tells the key and the flags, and the operand that waited tells the type
  obtain ⟨_, htag, storage, -, rfl⟩ := hsurveyed.site haccess
  rw [hsite] at htag
  have hopen : (⟨i, j, 4, .descriptorId f.type⟩ : Fixup) ∈ r₁.openIn i :=
    mem_filter.2 ⟨Array.mem_toList_iff.2 (hsurveyed.descriptor haccess hhost), by simp⟩
  rw [hc.fixups, mem_openOperands] at hopen
  obtain ⟨-, -, ps, hps, hlinked⟩ := hopen
  rw [Nat.sub_zero, getElem?_map, ho, Option.map_some, Option.some.injEq] at hps
  subst hps
  rw [hop] at hlowers
  cases hlowers with
  | plain h => cases h
  | field _ _ _ key inStaticRegion host tag' id wide region hid =>
    cases htag
    have hid : id = .link (.descriptorId f.type) := by
      cases id with
      | link operand => simpa [links, size, eq_comm] using hlinked
      | _ => simp [links, size] at hlinked
    subst hid
    have hregion : f.inStaticRegion = true := by
      rw [FieldUse.inStaticRegion, hhost, Bool.or_true]
    have hw := hinstalled.links j _ ho (2, .fieldOffset f.key) (by simp [links, size])
    have hd := hinstalled.links j _ ho (4, .descriptorId f.type) hlinked
    refine ⟨offset, _, _, hoffset, hw, hd, fun code hcode => ?_⟩
    have hholds := hinstalled.holds hcode ho hoffset
    rw [hregion, hhost] at hholds
    exact hholds

/-- **An accessed field that is shared** has its static field, if keys are apart. -/
theorem static_of_access (hkeys : r'.keysApart c.program = true) (hm : m ∈ r'.methods)
    (hj : m.Accesses c.program j f) (hhost : f.host = true) :
    ∃ s ∈ linked.layout.statics, s.key = f.key ∧ s.type = f.type ∧ s.host = true := by
  obtain ⟨r₁, hbind, hlists, hserves, -⟩ := statics_of_link hlink
  obtain ⟨hsurveyed, haccessed⟩ := surveyed_of_link hentry hbind hlink
  -- the use that was recorded under the key is one of the same field
  have same {g : FieldUse} (hg : g ∈ r₁.fields) (hkey : g.key = f.key) :
      g.type = f.type ∧ g.host = f.host := by
    obtain ⟨i', m', j', hm', hj'⟩ := haccessed g hg
    exact keysApart_same hkeys (Array.mem_of_getElem? hm') hm hj' hj hkey
  obtain ⟨i, hi⟩ := Array.mem_iff_getElem?.1 hm
  obtain ⟨_, hsite, storage, -, rfl⟩ := (hsurveyed hi).site hj
  obtain ⟨g, hg, hkey⟩ := (hsurveyed hi).recorded (Array.mem_of_getElem? hsite)
  have hregion : g.inStaticRegion = true := by
    rw [FieldUse.inStaticRegion, (same hg hkey).2, hhost, Bool.or_true]
  obtain ⟨s, hs, hskey⟩ := hserves.known g (mem_filter.2 ⟨Array.mem_toList_iff.2 hg, hregion⟩)
  obtain ⟨g', hg', hkey', -, htype, hshost, -⟩ := hlists.origin s (Array.mem_toList_iff.2 hs)
  have hsame := same (Array.mem_toList_iff.1 hg') (hkey'.trans (hskey.trans hkey))
  exact ⟨s, hs, hskey.trans hkey, htype ▸ hsame.1, hshost ▸ hsame.2.trans hhost⟩

end

end Registry

/-! ## The three tables -/

/-- The host map, the image and the code of a build agree on the fields that are shared with the
host. -/
structure HostAgrees (c : BuildContext) (r : Registry) (map : HostMap) (image : LoadedImage) :
    Prop where
  /-- An access to a shared field has both flags, and the offset and the descriptor of the one entry
  with the key of the field. -/
  accesses : ∀ {i j : Nat} {m : CompiledMethod} {isStatic : Bool} {access : Access} {ref : FieldRef}
    {f : ResolvedField}, r.methods[i]? = some m →
    m.op? c.program j = some (.field isStatic access ref) →
    c.program.resolveField { ref with owner := ref.owner.substitute m.typeArgs } = .ok f →
    Lowering.isHostSurface c.program 65 f.declaringId = true →
    ∃ q offset h, image.methods[i]? = some q ∧ m.offset? j = some offset ∧ h ∈ map.fields ∧
      h.key = c.program.fullName f.declaringType ++ "::" ++ f.field.name ∧
      (∀ h' ∈ map.fields, h'.key = h.key → h' = h) ∧
      Holds q.code offset
        ((Lowering.fieldOpcode access).byte :: (Opcode.fieldStatic ||| Opcode.fieldHost) ::
          (Word.bytes16 h.offset ++ Word.bytes16 h.descriptor))
  /-- The entries are the shared ones of the static table. -/
  entries : List.Forall₂ (fun h s => s.offset = h.offset ∧ s.tag = h.tag.id ∧
    s.descriptor = h.descriptor) map.fields (image.statics.entries.filter (·.host))
  /-- Each entry lies behind those before it. -/
  apart : map.fields.Pairwise fun h h' => h.offset.toNat + h.tag.slotSize ≤ h'.offset.toNat
  /-- Each entry is an accessed field whose type the host understands. -/
  types : ∀ h ∈ map.fields, ∃ m ∈ r.methods, ∃ j f, m.Accesses c.program j f ∧ f.host = true ∧
    f.key = h.key ∧ f.name = h.name ∧ HostType c.program f.type

/-- The entry of a static field in the host map. -/
def HostField.ofStatic (s : StaticField) : HostField :=
  { name := s.name, key := s.key, offset := s.offset, tag := s.tag
    descriptor := s.descriptor.getD Opcode.placeholder }

theorem HostMap.mem_ofLayout :
    h ∈ (HostMap.ofLayout t).fields ↔ ∃ s ∈ t.statics, s.host = true ∧ h = .ofStatic s := by
  simp only [ofLayout, mem_map, mem_filter, Array.mem_toList_iff]
  constructor
  · rintro ⟨s, ⟨hs, hhost⟩, rfl⟩
    exact ⟨s, hs, hhost, rfl⟩
  · rintro ⟨s, hs, hhost, rfl⟩
    exact ⟨s, ⟨hs, hhost⟩, rfl⟩

theorem Build.hostMap_of_ofLinked {entry : Nat} {b : Build}
    (h : ofLinked c r linked entry = .ok b) : b.hostMap = HostMap.ofLayout linked.layout := by
  obtain ⟨image, -, h⟩ := except_bind_ok.1 h
  split at h
  all_goals
    obtain ⟨cUnit, -, h⟩ := except_bind_ok.1 h
    rw [except_pure_ok] at h
    subst h
    rfl

theorem hostMap_entries {entries : List StaticRecord}
    (h : List.Forall₂ Image.IsStatic t.statics.toList entries) :
    List.Forall₂ (fun h s => s.offset = h.offset ∧ s.tag = h.tag.id ∧ s.descriptor = h.descriptor)
      (HostMap.ofLayout t).fields (entries.filter (·.host)) := by
  rw [ofLayout, forall₂_map_left_iff]
  have hshared := rel_filter (R := Image.IsStatic) (p := (·.host)) (q := (·.host))
    (fun s record hs => by simp [hs.host]) h
  refine hshared.imp fun s record hs => ⟨hs.offset, hs.tag, ?_⟩
  simp [hs.descriptor]

section
variable {c : BuildContext} {start : MethodRef} {index : Nat} {r₀ : Registry} {linked : Linked}
  (hentry : Registry.compileEntry c start {} = .ok index r₀)
  (hlink : Registry.link c r₀ = .ok linked r)

include hlink in
theorem static_eq_of_key {s s' : StaticField} (hs : s ∈ linked.layout.statics)
    (hs' : s' ∈ linked.layout.statics) (hkey : s'.key = s.key) : s' = s := by
  obtain ⟨_, -, hlists, -⟩ := statics_of_link hlink
  exact inj_on_of_nodup_map hlists.keys (Array.mem_toList_iff.2 hs') (Array.mem_toList_iff.2 hs)
    hkey

include hlink in
theorem hostMap_apart : (HostMap.ofLayout linked.layout).fields.Pairwise
    fun h h' => h.offset.toNat + h.tag.slotSize ≤ h'.offset.toNat := by
  obtain ⟨_, -, -, hserves, -⟩ := statics_of_link hlink
  have hplaced := placed_pairwise hserves.tiled.offsets
  rw [staticSlots, pairwise_map] at hplaced
  rw [ofLayout, pairwise_map]
  exact hplaced.filter _

include hentry hlink in
theorem hostMap_types (hh : h ∈ (HostMap.ofLayout linked.layout).fields) :
    ∃ m ∈ r.methods, ∃ j f, m.Accesses c.program j f ∧ f.host = true ∧ f.key = h.key ∧
      f.name = h.name ∧ HostType c.program f.type := by
  obtain ⟨s, hs, hhost, rfl⟩ := mem_ofLayout.1 hh
  obtain ⟨r₁, hbind, hlists, -⟩ := statics_of_link hlink
  obtain ⟨-, haccessed⟩ := surveyed_of_link hentry hbind hlink
  obtain ⟨f, hf, hkey, hname, htype, hfhost, hunderstood⟩ := hlists.origin s (Array.mem_toList_iff.2 hs)
  obtain ⟨_, m, j, hm, hj⟩ := haccessed f (Array.mem_toList_iff.1 hf)
  refine ⟨m, Array.mem_of_getElem? hm, j, f, hj, hfhost.trans hhost, hkey, hname, ?_⟩
  rw [htype]
  exact hostType_of_isHostType (hunderstood hhost)

include hentry hlink in
/-- The one entry with the key of an accessed field that is shared, with the offset and the descriptor
that accesses to the field are given. -/
theorem hostMap_of_access (hkeys : r.keysApart c.program = true) (hm : m ∈ r.methods)
    (hj : m.Accesses c.program j f) (hhost : f.host = true) {w id : UInt16}
    (hw : linked.layout.fieldOffset? f.key = some w)
    (hid : ∃ key, DescriptorKey.ofType c.program f.type = .ok key ∧
      linked.descriptors.idOf? key = some id) :
    ∃ h ∈ (HostMap.ofLayout linked.layout).fields, h.key = f.key ∧ h.offset = w ∧
      h.descriptor = id ∧ ∀ h' ∈ (HostMap.ofLayout linked.layout).fields, h'.key = h.key → h' = h := by
  obtain ⟨s, hs, hkey, htype, hshared⟩ := static_of_access hentry hlink hkeys hm hj hhost
  obtain ⟨_, -, -, -, hids⟩ := statics_of_link hlink
  refine ⟨.ofStatic s, mem_ofLayout.2 ⟨s, hs, hshared, rfl⟩, hkey, ?_, ?_, ?_⟩
  · unfold fieldOffset? at hw
    cases hfound : linked.layout.staticField? f.key with
    | some s' =>
      obtain ⟨hs', hkey'⟩ := staticField?_some hfound
      rw [hfound, static_eq_of_key hlink hs hs' (hkey'.trans hkey.symm)] at hw
      exact Option.some.inj hw
    | none => exact absurd hkey (staticField?_none hfound s hs)
  · obtain ⟨i, hi⟩ := Array.mem_iff_getElem?.1 hs
    obtain ⟨key, id', hkey', hid', hdescriptor⟩ := hids i s (Array.getElem?_eq_some_iff.1 hi).1 hi
    obtain ⟨key'', hkey'', hid''⟩ := hid
    rw [htype, hkey''] at hkey'
    cases hkey'
    rw [hid''] at hid'
    cases hid'
    simp [HostField.ofStatic, hdescriptor]
  · intro h' hh' hsame
    obtain ⟨s', hs', -, rfl⟩ := mem_ofLayout.1 hh'
    rw [static_eq_of_key hlink hs hs' hsame]

end

/-- **Host and device agree on the shared fields**, in every build in which accessed fields that have
one key are one field. -/
theorem host_agrees {c : BuildContext} {start : MethodRef} {index : Nat} {linked : Linked}
    {r : Registry} {b : Build} (hcompile : c.compileAndLink start {} = .ok (index, linked) r)
    (hbuild : Build.ofLinked c r linked index = .ok b) (hkeys : r.keysApart c.program = true) :
    ∃ image, LoadedImage.read b.bytes.toArray = .ok image ∧ HostAgrees c r b.hostMap image := by
  obtain ⟨r₀, hentry, hlink⟩ := BuildContext.compileAndLink_ok hcompile
  obtain ⟨image, himage, hloaded⟩ := Image.exists_of_build hbuild
  have hread := Image.readBack_of_link hlink himage
  refine ⟨image.loaded, hloaded, ?_⟩
  rw [Build.hostMap_of_ofLinked hbuild]
  refine ⟨fun {i j m isStatic access ref f} hm hop hf hhost => ?_, hostMap_entries hread.statics,
    hostMap_apart hlink, fun h hh => hostMap_types hentry hlink hh⟩
  have huse : (Op.field isStatic access ref).fieldUse? c.program m.typeArgs =
      some (f.use c.program isStatic) := by
    rw [Op.fieldUse?, hf]
    rfl
  obtain ⟨offset, w, id, hoffset, hw, hid, hholds⟩ :=
    holds_host_access hentry hlink hm hop huse hhost
  obtain ⟨h, hh, hkey, rfl, rfl, hone⟩ := hostMap_of_access hentry hlink hkeys
    (Array.mem_of_getElem? hm) ⟨_, hop, huse⟩ hhost hw hid
  obtain ⟨q, hq, hmethod⟩ := forall₂_getElem? hread.methods (by rwa [Array.getElem?_toList])
  exact ⟨q, offset, h, by rwa [Array.getElem?_toList] at hq, hoffset, hh, hkey, hone,
    hholds q.code hmethod.code⟩

/-- A program that reads shared fields of all kinds, some of them through a type that inherits them, and
keeps one static field to itself. -/
def panel : BuildContext where
  program := {
    types := #[
      { name := "Panel", isHostSurface := true
        fields := [{ name := "speed", type := .primitive .i32 },
          { name := "mode", type := .named ⟨1⟩ [] }, { name := "label", type := .string },
          { name := "samples", type := .array (.primitive .i16), isStatic := true }] },
      { name := "Mode", kind := .enumType .u8 },
      { name := "Pump", base := some (.named ⟨0⟩ []), methods := [⟨0⟩] },
      { name := "Log", fields := [{ name := "last", type := .primitive .i32, isStatic := true }] }]
    methods := #[
      { name := "Scan", declaring := ⟨2⟩
        body := some { code := #[{ op := .slot .arguments .load 0 },
          { op := .field false .load ⟨.named ⟨2⟩ [], "speed"⟩ },
          { op := .field true .store ⟨.named ⟨3⟩ [], "last"⟩ },
          { op := .slot .arguments .load 0 }, { op := .const (.i4 1) },
          { op := .field false .store ⟨.named ⟨2⟩ [], "mode"⟩ },
          { op := .slot .arguments .load 0 },
          { op := .field false .load ⟨.named ⟨0⟩ [], "label"⟩ }, { op := .pop },
          { op := .field true .load ⟨.named ⟨0⟩ [], "samples"⟩ }, { op := .pop },
          { op := .slot .arguments .load 0 },
          { op := .field false .address ⟨.named ⟨0⟩ [], "speed"⟩ }, { op := .pop },
          { op := .ret }] } }] }

def panelEntry : MethodRef := ⟨.named ⟨2⟩ [], "Scan", [], .void, true⟩

def panelRegistry : Registry := stateAfter (panel.compileAndLink panelEntry) {}

theorem panel_host_agrees :
    ∃ index linked b, panel.compileAndLink panelEntry {} = .ok (index, linked) panelRegistry ∧
      Build.ofLinked panel panelRegistry linked index = .ok b ∧
      panelRegistry.keysApart panel.program = true ∧
      b.hostMap.fields.map (·.name) = ["speed", "mode", "label", "samples"] ∧
      ∃ image, LoadedImage.read b.bytes.toArray = .ok image ∧
        HostAgrees panel panelRegistry b.hostMap image := by
  obtain ⟨index, linked, b, hrun, hb, hnames⟩ := @Build.exists_of_any panel panelEntry
    (fun _ b => b.hostMap.fields.map (·.name) == ["speed", "mode", "label", "samples"])
    (by decide +kernel)
  have hkeys : panelRegistry.keysApart panel.program = true := by decide +kernel
  exact ⟨index, linked, b, hrun, hb, hkeys, eq_of_beq hnames, host_agrees hrun hb hkeys⟩

end DeviceCode
