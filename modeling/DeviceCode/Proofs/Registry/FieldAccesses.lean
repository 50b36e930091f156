import DeviceCode.Proofs.LinkedCode

/-!
# Field instructions

`CompiledMethod.Accesses`: the use that an instruction of a compiled method makes of a field.
`Registry.Gathers`: what compiling makes of these uses. Each is the site of its instruction and is
recorded, if the field is shared with the host then the id of its type is an operand of the instruction,
and no other uses are recorded. Main statement: `Registry.gathers_of_bound`.
-/

namespace DeviceCode

variable {p : Program} {index : Nat} {lowered : LoweredOp} {r r' : Registry} {c : BuildContext}
  {compile : Compiler} {m : CompiledMethod} {l : Lowering} {d : MethodDef} {body : Body}

namespace CompiledMethod

/-- The operation of the instruction at an index. -/
def op? (p : Program) (m : CompiledMethod) (j : Nat) : Option Op :=
  ((p.methodDef? m.method).bind (·.body)).bind fun body => body.code[j]?.map (·.op)

/-- The lines are those of the instructions of the body. -/
def Sourced (p : Program) (m : CompiledMethod) : Prop :=
  ∃ d body, p.methodDef? m.method = some d ∧ d.body = some body ∧ m.lines = body.code.map (·.line)

/-- The instruction at the index makes that use of a field. -/
def Accesses (p : Program) (m : CompiledMethod) (j : Nat) (f : FieldUse) : Prop :=
  ∃ op, m.op? p j = some op ∧ op.fieldUse? p m.typeArgs = some f

theorem op?_eq (hd : p.methodDef? m.method = some d) (hbody : d.body = some body) (j : Nat) :
    m.op? p j = body.code[j]?.map (·.op) := by
  simp [op?, hd, hbody]

end CompiledMethod

/-! ## Recorded fields -/

namespace Registry

/-- A field with the key is recorded. -/
def Recorded (r : Registry) (key : String) : Prop := ∃ f ∈ r.fields, f.key = key

theorem Recorded.mono {key : String} (h : Recorded r key) (hr : Extends r r') : Recorded r' key := by
  obtain ⟨f, hf, hkey⟩ := h
  rw [← Array.mem_toList_iff] at hf
  exact ⟨f, Array.mem_toList_iff.1 (hr.fields.subset hf), hkey⟩

theorem mem_recordField {f g : FieldUse} (h : g ∈ (r.recordField f).fields) :
    g ∈ r.fields ∨ g = f := by
  unfold recordField at h
  split at h
  · exact .inl h
  · simpa using h

theorem recorded_recordField (f : FieldUse) (r : Registry) : Recorded (r.recordField f) f.key := by
  unfold recordField
  split
  · rename_i hany
    obtain ⟨g, hg, hkey⟩ := Array.any_eq_true'.1 hany
    exact ⟨g, hg, by simpa using hkey⟩
  · exact ⟨f, by simp, rfl⟩

end Registry

/-! ## Lowering -/

namespace Lowering

open Registry (Extends Recorded Uses)

/-- What is known of an instruction once it is lowered: the use that it makes of a field is its site and is
recorded, and the id of a type that is shared with the host stands behind the flags and the offset. -/
structure Placed (l : Lowering) (r : Registry) (item : Instruction × Nat) (site : Site) : Prop where
  resolves : ∀ {isStatic access ref}, item.1.op = .field isStatic access ref →
    ∃ f, item.1.op.fieldUse? l.program l.typeArgs = some f
  uses : ∀ {f}, item.1.op.fieldUse? l.program l.typeArgs = some f → Uses l.program site f
  recorded : ∀ {key inStaticRegion host tag}, site = .field key inStaticRegion host tag →
    Recorded r key
  descriptor : ∀ {f}, item.1.op.fieldUse? l.program l.typeArgs = some f → f.host = true →
    ⟨l.index, item.2, 4, .descriptorId f.type⟩ ∈ r.fixups

variable {item : Instruction × Nat}

theorem Placed.mono {site : Site} (h : l.Placed r item site)
    (hr : Extends r r') : l.Placed r' item site where
  resolves := h.resolves
  uses := h.uses
  recorded hsite := (h.recorded hsite).mono hr
  descriptor hf hhost := by
    rw [← Array.mem_toList_iff]
    exact hr.fixups.subset (Array.mem_toList_iff.2 (h.descriptor hf hhost))

theorem mem_links_host {host : Bool} (hhost : host = true) (opcode : Opcode) (flags : UInt8)
    (key : String) (type : TypeRef) (other : Piece) :
    (4, .descriptorId type) ∈ Piece.links 0 [.opcode opcode, .byte flags, .link (.fieldOffset key),
      if host then .link (.descriptorId type) else other] := by
  rw [if_pos hhost]
  simp [Piece.links, Piece.size]

theorem lowerOp_placed (h : l.lowerOp item.2 item.1.op r = .ok lowered r') :
    l.Placed { r' with fixups := r'.fixups ++ l.fixupsOf item.2 lowered.pieces } item lowered.site := by
  obtain ⟨⟨op, line⟩, chunk⟩ := item
  cases op with
  | field isStatic access ref =>
    obtain ⟨resolved, storage, hresolved, hstorage, hn, rfl⟩ :=
      lowerField_eq (show l.lowerField isStatic access ref r = .ok lowered r' from h)
    have huse : (Op.field isStatic access ref).fieldUse? l.program l.typeArgs =
        some (resolved.use l.program isStatic) := by
      rw [Op.fieldUse?, hresolved]
      rfl
    refine ⟨fun _ => ⟨_, huse⟩, fun hf => ?_, fun hsite => ?_, fun hf hhost => ?_⟩
    · cases huse.symm.trans hf
      exact ⟨storage, hstorage, rfl⟩
    · cases hsite
      exact show Recorded r' _ from (Registry.recorded_recordField _ r).mono hn.extension
    · cases huse.symm.trans hf
      refine Array.mem_toList_iff.1 ?_
      rw [Array.toList_appendList]
      exact List.mem_append_right _ (List.mem_map_of_mem (mem_links_host hhost _ _ _ _ _))
  | _ =>
    refine ⟨by simp, by simp [Op.fieldUse?], fun hsite => ?_, by simp [Op.fieldUse?]⟩
    cases (lowerOp_ok h).2 with
    | plain h => simp [site_of_plain h] at hsite
    | _ => cases hsite

theorem lowerNext_placed (hcompile : Compiler.Keeps l.compile Extends) :
    ∀ {items : List (Instruction × Nat)} {body body' : LoweredBody} {r r' : Registry},
      items.foldlM l.lowerNext body r = .ok body' r' →
      ∃ sites, body'.sites.toList = body.sites.toList ++ sites ∧
        List.Forall₂ (l.Placed r') items sites
  | [], body, body', r, r', h => by
    obtain ⟨rfl, -⟩ := state_pure_ok.1 h
    exact ⟨[], (List.append_nil _).symm, .nil⟩
  | item :: items, body, body', r, r', h => by
    obtain ⟨body₁, r₁, hnext, h⟩ := state_bind_ok.1 h
    have hrest : Extends r₁ r' :=
      (Registry.growth_extends.foldlM (Registry.admits_extends hcompile).lowerNext items body₁).ok h
    obtain ⟨sites, hsites, hplaced⟩ := lowerNext_placed hcompile h
    obtain ⟨lowered, r₂, hlower, hnext⟩ := state_bind_ok.1 hnext
    obtain ⟨_, r₃, hfix, hnext⟩ := state_bind_ok.1 hnext
    rw [state_modify_ok] at hfix
    obtain ⟨rfl, rfl⟩ := state_pure_ok.1 hnext
    exact ⟨lowered.site :: sites, by simpa using hsites,
      .cons ((hfix ▸ lowerOp_placed hlower).mono hrest) hplaced⟩

end Lowering

/-! ## The relation -/

namespace Registry

/-- A method has the lines of its body. The uses that it makes of fields are its sites, they are recorded,
and the ids of types that are shared with the host wait for the link. -/
structure Surveyed (p : Program) (r : Registry) (index : Nat) (m : CompiledMethod) : Prop where
  sourced : m.Sourced p
  resolves : ∀ {j isStatic access ref}, m.op? p j = some (.field isStatic access ref) →
    ∃ f, m.Accesses p j f
  site : ∀ {j f}, m.Accesses p j f → ∃ site, m.sites[j]? = some site ∧ Uses p site f
  recorded : ∀ {key inStaticRegion host tag}, .field key inStaticRegion host tag ∈ m.sites →
    Recorded r key
  descriptor : ∀ {j f}, m.Accesses p j f → f.host = true →
    ⟨index, j, 4, .descriptorId f.type⟩ ∈ r.fixups

theorem Surveyed.mono (h : Surveyed p r index m) (hr : Extends r r') :
    Surveyed p r' index m where
  sourced := h.sourced
  resolves := h.resolves
  site := h.site
  recorded hsite := (h.recorded hsite).mono hr
  descriptor hj hhost := by
    rw [← Array.mem_toList_iff]
    exact hr.fixups.subset (Array.mem_toList_iff.2 (h.descriptor hj hhost))

theorem Surveyed.of_placed (hd : l.program.methodDef? m.method = some d) (hbody : d.body = some body)
    (hlines : m.lines = body.code.map (·.line)) (hargs : l.typeArgs = m.typeArgs)
    (h : List.Forall₂ (l.Placed r) body.code.toList.zipIdx m.sites.toList) :
    Surveyed l.program r l.index m := by
  have placed {j : Nat} {op : Op} (hj : m.op? l.program j = some op) : ∃ i site, i.op = op ∧
      m.sites[j]? = some site ∧ l.Placed r (i, j) site := by
    rw [CompiledMethod.op?_eq hd hbody, Option.map_eq_some_iff] at hj
    obtain ⟨i, hi, hop⟩ := hj
    have hitem : body.code.toList.zipIdx[j]? = some (i, j) := by simp [hi]
    obtain ⟨site, hsite, hitem⟩ := forall₂_getElem? h hitem
    exact ⟨i, site, hop, by rwa [Array.getElem?_toList] at hsite, hitem⟩
  refine ⟨⟨d, body, hd, hbody, hlines⟩, fun {j isStatic access ref} hj => ?_, ?_, fun hsite => ?_, ?_⟩
  · obtain ⟨i, site, hop, -, hitem⟩ := placed hj
    obtain ⟨f, hf⟩ := hitem.resolves hop
    exact ⟨f, _, hj, by rwa [← hargs, ← hop]⟩
  · rintro j f ⟨op, hj, hf⟩
    obtain ⟨i, site, rfl, hsite, hitem⟩ := placed hj
    exact ⟨site, hsite, hitem.uses (by rwa [hargs])⟩
  · obtain ⟨item, -, hitem⟩ := forall₂_mem_right h _ (Array.mem_toList_iff.2 hsite)
    exact hitem.recorded rfl
  · rintro j f ⟨op, hj, hf⟩ hhost
    obtain ⟨i, site, rfl, -, hitem⟩ := placed hj
    exact hitem.descriptor (by rwa [hargs]) hhost

/-- The uses of fields that are recorded between two registries are those of the methods that came,
and those of `own`. -/
structure Gathers (p : Program) (own : FieldUse → Prop) (r r' : Registry) : Prop where
  extension : Extends r r'
  origin : ∀ f ∈ r'.fields, f ∈ r.fields ∨ own f ∨
    ∃ i m j, r.methods.size ≤ i ∧ r'.methods[i]? = some m ∧ m.Accesses p j f
  methods : ∀ i m, r.methods.size ≤ i → r'.methods[i]? = some m → Surveyed p r' i m

namespace Gathers

variable {own : FieldUse → Prop} {s : Registry}

theorem of_methods (h : Extends r s) (hmethods : s.methods = r.methods)
    (hfields : ∀ f ∈ s.fields, f ∈ r.fields ∨ own f) : Gathers p own r s where
  extension := h
  origin f hf := (hfields f hf).imp_right .inl
  methods i m hi hm := by
    rw [hmethods] at hm
    have := (Array.getElem?_eq_some_iff.1 hm).1
    omega

theorem weaken (h : Gathers p (fun _ => False) r s) (own : FieldUse → Prop) : Gathers p own r s where
  extension := h.extension
  origin f hf := (h.origin f hf).imp_right fun h => .inr (h.resolve_left id)
  methods := h.methods

end Gathers

theorem growth_gathers (p : Program) (own : FieldUse → Prop) : Growth (Gathers p own) where
  refl r := .of_methods (growth_extends.refl r) rfl fun _ hf => .inl hf
  trans {r s t} h₁ h₂ := by
    refine ⟨growth_extends.trans h₁.extension h₂.extension, fun f hf => ?_, fun i m hi hm => ?_⟩
    · obtain hf | hown | ⟨i, m, j, hi, hm, hj⟩ := h₂.origin f hf
      · obtain hf | hown | ⟨i, m, j, hi, hm, hj⟩ := h₁.origin f hf
        · exact .inl hf
        · exact .inr (.inl hown)
        · exact .inr (.inr ⟨i, m, j, hi, h₂.extension.getElem? hm, hj⟩)
      · exact .inr (.inl hown)
      · exact .inr (.inr ⟨i, m, j, Nat.le_trans h₁.extension.size hi, hm, hj⟩)
    · by_cases his : i < s.methods.size
      · rw [h₂.extension.methods i his] at hm
        exact (h₁.methods i m hi hm).mono h₂.extension
      · exact h₂.methods i m (by omega) hm

theorem Notes.gathers (h : Notes r r') (p : Program) (own : FieldUse → Prop) : Gathers p own r r' :=
  .of_methods h.extension h.methods fun _ hf => .inl (h.fields ▸ hf)

/-! ## Compiling -/

theorem allows_gathers (S : Op → Prop)
    (hcompile : Compiler.Leads l.compile (Gathers l.program fun _ => False)) :
    l.Allows S fun x => Leads
      (Gathers l.program fun f => ∃ op, S op ∧ op.fieldUse? l.program l.typeArgs = some f) x where
  closed := (growth_gathers _ _).closed_leads
  compile id args r i r' h := (hcompile id args r i r' h).weaken _
  field {op f} hop hf := by
    refine (Growth.modify fun r => .of_methods (extends_recordField f r) ?_ fun g hg => ?_).leads
    · unfold recordField
      split <;> rfl
    · exact (mem_recordField hg).imp_right fun hgf => ⟨op, hop, by rw [hgf, hf]⟩
  discover t := (Growth.modify fun r => (notes_discoverClass _ t r).gathers _ _).leads
  root t := (Growth.modify fun r => (notes_addLayoutRoot t r).gathers _ _).leads
  slot _ _ _ _ _ h := (notes_internSlot h).gathers _ _
  fixups fs := (Growth.modify fun r =>
    .of_methods (extends_fixups fs r) rfl fun _ hf => .inl hf).leads

/-- Completing the entry of a method gathers its uses and those of all that it reaches. -/
theorem complete_gathers (hextends : compile.Keeps Extends)
    (hcompile : compile.Leads (Gathers c.program fun _ => False)) {types : FrameTypes} {u : Unit}
    (hm : r.methods[index]? = some m) (hu : m.cStatus = .undecided)
    (hd : c.program.methodDef? m.method = some d) (hbody : d.body = some body)
    (hlines : m.lines = body.code.map (·.line))
    (h : complete c compile index m types body.code r = .ok u r') :
    (∀ f ∈ r'.fields, f ∈ r.fields ∨ ∃ i m j, (i = index ∨ r.methods.size ≤ i) ∧
      r'.methods[i]? = some m ∧ m.Accesses c.program j f) ∧
    ∀ i m, i = index ∨ r.methods.size ≤ i → r'.methods[i]? = some m → Surveyed c.program r' i m := by
  obtain ⟨e, ops, r₁, _, hfills⟩ := complete_entry hextends hm hu h
  have hidentity := hfills.identity
  have hentries := hfills.entries
  have hfields := hfills.fields
  have hfixups := hfills.fixups
  simp only [identity, Prod.mk.injEq] at hidentity
  have hd' : c.program.methodDef? e.method = some d := by rw [hidentity.2.1, hd]
  have hgathers := (allows_gathers (l := loweringOf c compile index m body.code)
    (fun op => ∃ i ∈ body.code, i.op = op) hcompile).lowerBody (fun i hi => ⟨i, hi, rfl⟩) _ _ _
      hfills.lowered
  have hindex := (Array.getElem?_eq_some_iff.1 hm).1
  refine ⟨fun f hf => ?_, fun i m' hi hm' => ?_⟩
  · rw [hfields] at hf
    obtain hf | ⟨_, ⟨i, hi, rfl⟩, hf⟩ | ⟨i, m', j, hi, hm', hj⟩ := hgathers.origin f hf
    · exact .inl hf
    · obtain ⟨j, hj⟩ := Array.mem_iff_getElem?.1 hi
      refine .inr ⟨index, e, j, .inl rfl, by rw [hentries, if_pos rfl], i.op, ?_, ?_⟩
      · rw [CompiledMethod.op?_eq hd' hbody, hj]
        rfl
      · rw [hidentity.2.2]
        exact hf
    · refine .inr ⟨i, m', j, .inr hi, ?_, hj⟩
      rw [hentries, if_neg (by omega)]
      exact hm'
  · have surveyed : Surveyed c.program r₁ i m' := by
      rw [hentries] at hm'
      by_cases hown : i = index
      · rw [if_pos hown] at hm'
        cases hm'
        obtain ⟨sites, hlowered, hplaced⟩ := Lowering.lowerNext_placed
          (l := loweringOf c compile index m body.code) hextends hfills.lowered
        have hsites : e.sites.toList = sites := by
          rw [hfills.sites]
          simpa [Lowering.LoweredBody.ofOps] using hlowered
        rw [hown]
        exact .of_placed (l := loweringOf c compile index m body.code) hd' hbody
          (hfills.lines.trans hlines) hidentity.2.2.symm (hsites ▸ hplaced)
      · rw [if_neg hown] at hm'
        exact hgathers.methods i m' (hi.resolve_left hown) hm'
    refine ⟨surveyed.sourced, surveyed.resolves, surveyed.site, fun hsite => ?_,
      hfixups ▸ surveyed.descriptor⟩
    rw [Recorded, hfields]
    exact surveyed.recorded hsite

/-- Compiling a method gathers the uses that it and all that it reaches make of fields. -/
theorem gathers_compileWith (hextends : compile.Keeps Extends)
    (hcompile : compile.Leads (Gathers c.program fun _ => False))
    (id : MethodId) (typeArgs : List TypeRef) :
    Leads (Gathers c.program fun _ => False) (compileWith c compile id typeArgs) := by
  intro r index r' h
  have extension := (keeps_compileWith hextends id typeArgs).ok h
  obtain ⟨d, hd, ⟨-, rfl⟩ | ⟨-, rfl, body, r₁, slots, hbody, -, hreg, -, hpush, hcomplete⟩⟩ :=
    compileWith_ok h
  · exact (growth_gathers _ _).refl r'
  have hfields := (register_notes hreg).2
  have hsize : r₁.methods.size = r.methods.size + 1 := by rw [hpush, Array.size_push]
  obtain ⟨horigin, hsurveyed⟩ := complete_gathers hextends hcompile
    (hpush ▸ Array.getElem?_push_size) rfl hd hbody rfl hcomplete
  refine ⟨extension, fun f hf => ?_, fun i m hi hm => hsurveyed i m (by omega) hm⟩
  obtain hf | ⟨i, m, j, hi, hm, hj⟩ := horigin f hf
  · exact .inl (hfields ▸ hf)
  · exact .inr (.inr ⟨i, m, j, by omega, hm, hj⟩)

theorem admitsBinding_gathers (c : BuildContext) :
    AdmitsBinding c fun x => Leads (Gathers c.program fun _ => False) x :=
  .of_compileWith (fun hextends _ => gathers_compileWith hextends) (growth_gathers _ _)
    fun h => h.gathers _ _

variable {start : MethodRef} {iterations : Nat}

/-- **Once the entry is compiled and all slots are bound, the recorded uses are those of the compiled
methods.** -/
theorem gathers_of_bound
    (hentry : compileEntry c start {} = .ok index r) (hbind : bindSlots c r = .ok iterations r') :
    Gathers c.program (fun _ => False) {} r' :=
  (growth_gathers _ _).trans ((admitsBinding_gathers c).compileEntry start _ _ _ hentry)
    ((admitsBinding_gathers c).bindSlots _ _ _ hbind)

/-- The methods of a linked build are surveyed, and all that is recorded is the use of some method. -/
theorem surveyed_of_link {linked : Linked} {r₁ : Registry}
    (hentry : compileEntry c start {} = .ok index r) (hbind : bindSlots c r = .ok iterations r₁)
    (hlink : link c r = .ok linked r') :
    (∀ {i : Nat} {m}, r'.methods[i]? = some m → Surveyed c.program r₁ i m) ∧
      ∀ f ∈ r₁.fields, ∃ (i : Nat) (m : CompiledMethod) (j : Nat), r'.methods[i]? = some m ∧
        m.Accesses c.program j f := by
  obtain ⟨r₂, hbind', hsize, hmethods⟩ := methods_of_link hentry hlink
  cases hbind.symm.trans hbind'
  have hgathers := gathers_of_bound hentry hbind
  refine ⟨fun {i m} hm => ?_, fun f hf => ?_⟩
  · obtain ⟨m₁, -, -, -, -, chunks, status, -, hm₁, -, hm', -⟩ :=
      hmethods i (Array.getElem?_eq_some_iff.1 hm).1
    cases hm.symm.trans hm'
    obtain ⟨sourced, resolves, site, recorded, descriptor⟩ := hgathers.methods i m₁ (Nat.zero_le i) hm₁
    exact ⟨sourced, resolves, site, recorded, descriptor⟩
  · obtain hf | hf | ⟨i, m, j, -, hm, hj⟩ := hgathers.origin f hf
    · simp at hf
    · exact hf.elim
    · obtain ⟨m', -, -, -, -, chunks, status, -, hm', -, hlinked, -⟩ :=
        hmethods i (hsize ▸ (Array.getElem?_eq_some_iff.1 hm).1)
      cases hm.symm.trans hm'
      exact ⟨i, _, j, hlinked, hj⟩

end Registry

end DeviceCode
