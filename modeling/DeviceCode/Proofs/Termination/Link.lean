import DeviceCode.Proofs.HostSurface
import DeviceCode.Proofs.Registry.Blocked
import DeviceCode.Proofs.Registry.Dispatch
import DeviceCode.Proofs.Termination.Compile
import DeviceCode.Proofs.Termination.Tables

/-!
# Builds of programs without generic types end

Everything that a build follows comes in finite numbers if no type has arguments: the registry has no
more slots than the program has methods and, but for the class of the entry, no more classes than it has
types (`Registry.Monomorphic`). So the queue of the link is empty after the pairs of those
(`bindPairs_error`), and what the tables are built from is of the kind that `Proofs.Termination.Tables` is
about. Main statement: `BuildContext.compileAndLink_ends`.
-/

namespace DeviceCode

open TypeRef

open TypeTables

open AgreeAt

open LayoutTable

open List

variable {entry : MethodRef} {first : TypeRef} {r r' : Registry} {e : CompileError}

namespace Registry

/-! ## Types in the registry -/

/-- No type in the registry has arguments, and every class but `first` is one of the program. -/
structure Monomorphic (p : Program) (first : TypeRef) (r : Registry) : Prop where
  fields : ∀ f ∈ r.fields, f.declaring.isMonomorphic ∧ f.type.isMonomorphic
  classes : ∀ e ∈ r.classes, e.1 = p.fullName e.2 ∧ e.2.isMonomorphic ∧
    (e.2 = first ∨ ∃ id d, e.2 = .named id [] ∧ p.typeDef? id = some d)
  roots : ∀ t ∈ r.layoutRoots, t.isMonomorphic
  slots : ∀ s ∈ r.slots, s.owner.isMonomorphic
  fixups : ∀ f ∈ r.fixups, ∀ t, f.operand = .descriptorId t → t.isMonomorphic

theorem Monomorphic.empty (p : Program) (first : TypeRef) : Monomorphic p first {} := by
  constructor <;> simp

section
variable {p : Program} (h : Monomorphic p first r)
include h

theorem Monomorphic.discover {t : TypeRef} (ht : t.isMonomorphic)
    (hknown : t = first ∨ ∃ id d, t = .named id [] ∧ p.typeDef? id = some d) :
    Monomorphic p first (r.discoverClass p t) := by
  unfold discoverClass
  dsimp only
  split
  · exact h
  · refine { h with classes := fun e he => ?_ }
    rcases Array.mem_push.1 he with he | rfl
    · exact h.classes e he
    · exact ⟨rfl, ht, hknown⟩

theorem Monomorphic.bindClass (i : Nat) (implementor : String × Nat) :
    Monomorphic p first (r.bindClass i implementor) := by
  refine { h with slots := fun s hs => ?_ }
  obtain ⟨k, hk⟩ := Array.mem_iff_getElem?.1 hs
  rw [Registry.bindClass, Array.getElem?_modify] at hk
  split at hk
  · obtain ⟨s', hs', rfl⟩ := Option.map_eq_some_iff.1 hk
    exact h.slots s' (Array.mem_of_getElem? hs')
  · exact h.slots s (Array.mem_of_getElem? hk)

theorem Monomorphic.slots_le (hnamed : Named p r) : r.slots.size ≤ p.methods.size := by
  have hkeys : r.keys.map (·.1) = r.slots.toList.map (·.key) := by simp [keys]
  have hnodup := hkeys ▸ hnamed.keys_nodup
  have hsub : (r.slots.toList.map (·.key)).toFinset ⊆ signatures p := by
    intro key hkey
    obtain ⟨s, hs, rfl⟩ := mem_map.1 (mem_toFinset.1 hkey)
    have hs := Array.mem_toList_iff.1 hs
    obtain ⟨d, args, hslot⟩ := hnamed.slots s hs
    obtain rfl : args = [] := isMonomorphic_named.1 (hslot.owner ▸ h.slots s hs)
    rw [hslot.key]
    exact mem_signatures hslot.method
  have hcard := (Finset.card_le_card hsub).trans (card_signatures_le p)
  rwa [toFinset_card_of_nodup hnodup, length_map] at hcard

theorem Monomorphic.classes_le (hdistinct : (r.classes.toList.map (·.1)).Nodup) :
    r.classes.size ≤ p.types.size + 1 := by
  have hsub : (r.classes.toList.map (·.1)).toFinset ⊆
      insert (p.fullName first) (typeKeys p) := by
    intro key hkey
    obtain ⟨e, he, rfl⟩ := mem_map.1 (mem_toFinset.1 hkey)
    obtain ⟨hname, -, hfirst | ⟨id, d, hid, hd⟩⟩ := h.classes e (Array.mem_toList_iff.1 he)
    · rw [hname, hfirst]
      exact Finset.mem_insert_self _ _
    · rw [hname, hid]
      exact Finset.mem_insert_of_mem (mem_typeKeys hd)
  have hcard := (Finset.card_le_card hsub).trans ((Finset.card_insert_le _ _).trans
    (Nat.succ_le_succ (card_typeKeys_le p)))
  rwa [toFinset_card_of_nodup hdistinct, length_map] at hcard

end

theorem kept_monomorphic (p : Program) (first : TypeRef) : Kept p (Monomorphic p first) where
  field {f r} hdeclaring htype h := by
    unfold recordField
    split
    · exact h
    · refine { h with fields := fun g hg => ?_ }
      rcases Array.mem_push.1 hg with hg | rfl
      · exact h.fields g hg
      · exact ⟨hdeclaring, htype⟩
  discover {id d r} hd h := h.discover (isMonomorphic_named.2 rfl) (.inr ⟨id, d, rfl, hd⟩)
  root {t r} ht h := by
    unfold addLayoutRoot
    split
    · exact h
    · refine { h with roots := fun u hu => ?_ }
      rcases Array.mem_push.1 hu with hu | rfl
      · exact h.roots u hu
      · exact ht
  slot {s r} hs h := by
    refine { h with slots := fun s' hs' => ?_ }
    rcases Array.mem_push.1 hs' with hs' | rfl
    · exact h.slots s' hs'
    · exact hs
  fixups {fs r} hfs h := by
    refine { h with fixups := fun f hf => ?_ }
    have hf := Array.mem_toList_iff.2 hf
    rw [Array.toList_appendList, mem_append, Array.mem_toList_iff] at hf
    exact hf.elim (h.fixups f) (hfs f)
  methods _ h := { h with }
  warnings _ h := { h with }

/-! ## Compiling -/

section
variable {c : BuildContext} (hp : c.program.Monomorphic) {t : TypeTables}
include hp

theorem proceeds_compileMethod {I : Registry → Prop} (hI : Kept c.program I) (id : MethodId) :
    Proceeds CompileError.Decided I (compileMethod c id []) := by
  have hbound : c.program.methods.size + 1 ≤ callBound c.program := by simp [callBound]
  exact (alike_compileWithin hp hI hbound hbound id).proceeds fun r _ =>
    Nat.lt_succ_of_le (unregistered_le_size c.program r)

theorem proceeds_compileEntry (hentry : entry.owner.isMonomorphic) :
    ∃ first, Proceeds CompileError.Decided (Monomorphic c.program first) (compileEntry c entry) := by
  unfold compileEntry
  cases hresolved : c.program.resolveMethod entry with
  | error e =>
    refine ⟨.void, parallel_proceeds.ofExcept_bind (fun e' he' => ?_) fun a ha => by cases ha⟩
    exact decides_resolveMethod _ _ e' (hresolved.trans he')
  | ok resolved =>
    obtain ⟨id, hid⟩ := Program.resolveMethod_inherits (T := (·.isMonomorphic = true)) hp.inherits
      hresolved hentry
    have hargs : resolved.declaringArgs = [] := isMonomorphic_named.1 hid
    refine ⟨.named resolved.method.declaring [], ?_⟩
    have compile := proceeds_compileMethod hp
      (kept_monomorphic c.program (.named resolved.method.declaring [])) resolved.id
    refine parallel_proceeds.ofExcept_bind (fun e he => by cases he) fun a ha => ?_
    cases ha
    rw [hargs]
    split
    · exact compile
    · refine parallel_proceeds.bind (agree_modify fun r hr => ?_) fun _ => compile
      exact ⟨hr.discover (isMonomorphic_named.2 rfl) (.inl rfl), Nat.le_refl _⟩

/-! ## Binding -/

theorem proceeds_bind (first : TypeRef) (s k : Nat) :
    Proceeds CompileError.Decided (Monomorphic c.program first) (bind c s k) := by
  intro r hr hroom
  have h := parallel_proceeds (E := CompileError.Decided) (I := Monomorphic c.program first)
  refine step (a := r) (t := r) rfl rfl (Nat.le_refl _) ?_
  refine step (a := r) (t := r) rfl rfl (Nat.le_refl _) ?_
  split
  · rename_i slot key type hslot hclass
    have htype := (hr.classes _ (Array.mem_of_getElem? hclass)).2.1
    refine h.ofExcept_bind (VirtualSlot.decides_implementation _ _ _) (fun found hfound => ?_) r hr hroom
    split
    · exact h.pure _
    · rename_i id args
      obtain ⟨owner, howner⟩ := VirtualSlot.implementation_inherits (T := (·.isMonomorphic = true))
        hp.inherits htype hfound
      obtain rfl : args = [] := isMonomorphic_named.1 howner
      split
      · exact h.pure _
      · refine h.bind (proceeds_compileMethod hp (kept_monomorphic c.program first) id) fun index => ?_
        exact agree_modify fun r hr => ⟨hr.bindClass s (key, index), Nat.le_refl _⟩
  · exact agreeAt_pure hr

theorem Monomorphic.binds {pairs : List (Nat × Nat)} (h : Monomorphic c.program first r)
    (hbinds : Binds c r pairs r') : Monomorphic c.program first r' := by
  induction hbinds with
  | nil => exact h
  | cons hfirst _ ih => exact ih ((proceeds_bind hp first _ _).ok h hfirst)

/-- **The queue comes to an end** after as many pairs as there can be of a slot and a class, if it is
not cut off before. -/
theorem bindPairs_error {bound : Nat} {q : BindQueue} {done : List (Nat × Nat)}
    (hr : Monomorphic c.program first r) (hbinding : Binding c.program done r)
    (hcovers : Covers (done ++ q.pairs) q.slots q.classes) (hslots : q.slots ≤ r.slots.size)
    (hclasses : q.classes ≤ r.classes.size) (h : bindPairs c bound q r = .error e r') :
    e.Decided ∨ e = .limitExceeded "link iterations" c.options.maxLinkIterations ∧
      done.length + bound < c.program.methods.size * (c.program.types.size + 1) := by
  induction bound generalizing q done r with
  | zero =>
    have hextended := BindQueue.covers_extend hcovers hslots hclasses
    cases hpairs : (q.extend r.slots.size r.classes.size).pairs with
    | nil =>
      rw [bindPairs_done hpairs] at h
      cases h
    | cons pair rest =>
      rw [bindPairs_cutOff hpairs] at h
      cases h
      refine .inr ⟨rfl, ?_⟩
      -- the pairs behind the queue and the one that is left are pairs of the slots and the classes
      have hlength := hextended.length
      rw [hpairs, length_append, length_cons] at hlength
      have hmost := Nat.mul_le_mul (hr.slots_le hbinding.named) (hr.classes_le hbinding.distinct)
      omega
  | succ n ih =>
    cases hpairs : (q.extend r.slots.size r.classes.size).pairs with
    | nil =>
      rw [bindPairs_done hpairs] at h
      cases h
    | cons pair rest =>
      obtain ⟨s, k⟩ := pair
      rw [bindPairs_succ hpairs] at h
      obtain h | ⟨_, r₁, hbind, h⟩ := state_bind_error.1 h
      · exact .inl ((proceeds_bind hp first s k).error hr h)
      · obtain ⟨hbinding₁, hcovers₁, hslots₁, hclasses₁⟩ :=
          bind_next hbinding hcovers hslots hclasses hpairs hbind
        have hrest := ih ((proceeds_bind hp first s k).ok hr hbind) hbinding₁ hcovers₁ hslots₁ hclasses₁ h
        rw [length_append, length_singleton] at hrest
        exact hrest.imp_right fun ⟨hlimit, hlt⟩ => ⟨hlimit, by omega⟩

theorem bindSlots_error (hr : Monomorphic c.program first r) (hbinding : Binding c.program [] r)
    (h : bindSlots c r = .error e r') :
    e.Decided ∨ e = .limitExceeded "link iterations" c.options.maxLinkIterations ∧
      c.options.maxLinkIterations < c.program.methods.size * (c.program.types.size + 1) := by
  obtain h | ⟨remaining, r₁, -, h⟩ := state_bind_error.1 h
  · have hend := bindPairs_error hp hr hbinding BindQueue.covers_empty (Nat.zero_le _) (Nat.zero_le _) h
    rwa [length_nil, Nat.zero_add] at hend
  · refine .inl (Proceeds.error (I := fun _ => True) ?_ trivial h)
    have hp := parallel_proceeds (E := CompileError.Decided) (I := fun _ : Registry => True)
    refine hp.bind hp.get fun r => ?_
    split
    · exact hp.pure _
    · exact hp.bind (hp.ofExcept (VirtualSlot.decides_candidates _ _)) fun _ => hp.throw rfl

/-! ## Tables -/

theorem proceeds_describeStatics {statics : List StaticField}
    (hstatics : ∀ f ∈ statics, f.type.isMonomorphic) :
    Proceeds CompileError.Decided (fun s => s.layout.Monomorphic)
      (describeStatics c.program statics) := by
  have h := parallel_proceeds (E := CompileError.Decided)
    (I := fun s : TypeTables => s.layout.Monomorphic)
  refine h.forM fun e he => h.bind (proceeds_ensure hp ?_) fun id => ?_
  · exact hstatics e.1 (fst_mem_of_mem_zipIdx he)
  · exact agree_modify fun s hs => ⟨hs, Nat.le_refl _⟩

theorem tables_monomorphic (hr : Monomorphic c.program first r) :
    Decides CompileError.Decided (r.tables c) ∧ ∀ t, r.tables c = .ok t → t.layout.Monomorphic := by
  have hfields : ∀ f ∈ r.fields.toList, f.declaring.isMonomorphic ∧ f.type.isMonomorphic :=
    fun f hf => hr.fields f (Array.mem_toList_iff.1 hf)
  have hroots : ∀ t ∈ r.classes.toList.map (·.2) ++ r.layoutRoots.toList, t.isMonomorphic := by
    intro t ht
    rcases mem_append.1 ht with ht | ht
    · obtain ⟨e, he, rfl⟩ := mem_map.1 ht
      exact (hr.classes e (Array.mem_toList_iff.1 he)).2.1
    · exact hr.roots t (Array.mem_toList_iff.1 ht)
  obtain ⟨hbuild, hlayout⟩ := build_monomorphic hp hfields hroots
  have describe : ∀ layout, build c.program r.fields.toList
      (r.classes.toList.map (·.2) ++ r.layoutRoots.toList) = .ok layout →
      Proceeds CompileError.Decided (fun s => s.layout.Monomorphic)
        (describeStatics c.program layout.statics.toList) := by
    intro layout hok
    refine proceeds_describeStatics hp fun f hf => ?_
    obtain ⟨g, hg, -, -, htype, -⟩ := (lists_of_build hok).origin f hf
    exact htype ▸ (hfields g hg).2
  constructor
  · refine hbuild.bind_of fun layout hok => ?_
    split
    · rename_i e s hrun
      exact decides_error ((describe layout hok).error (hlayout layout hok) hrun)
    · exact (decides_checkStructs _ _).bind fun _ => decides_pure _
  · intro s hs
    obtain ⟨layout, hok, hrun, -⟩ := tables_ok hs
    exact (describe layout hok).ok (hlayout layout hok) hrun

/-! ## Operands -/

theorem proceeds_operandValue (r : Registry) {operand : LinkOperand}
    (hoperand : ∀ t, operand = .descriptorId t → t.isMonomorphic) :
    Proceeds CompileError.Decided (fun s => s.layout.Monomorphic)
      (operandValue c.program r operand) :=
  parallel_operandValue parallel_proceeds r fun type htype =>
    proceeds_ensure hp (hoperand type htype)

theorem proceeds_applyFixup (ht : t.layout.Monomorphic) {f : Fixup}
    (hf : ∀ t, f.operand = .descriptorId t → t.isMonomorphic) :
    Proceeds CompileError.Decided (fun _ => True) (applyFixup c.program t f) :=
  parallel_applyFixup parallel_proceeds
    (fun herror => (proceeds_operandValue hp _ hf).error ht herror)
    fun _ => agree_modify fun _ _ => ⟨trivial, Nat.le_refl _⟩

theorem agreeAt_applyFixups (hr : Monomorphic c.program first r) (ht : t.layout.Monomorphic) :
    AgreeAt CompileError.Decided (fun _ => True) (fun _ => 0) (applyFixups c.program t)
      (applyFixups c.program t) r := by
  have h := parallel_proceeds (E := CompileError.Decided) (I := fun _ : Registry => True)
  have hfixups : ∀ f ∈ r.fixups.toList, ∀ t, f.operand = .descriptorId t → t.isMonomorphic :=
    fun f hf => hr.fixups f (Array.mem_toList_iff.1 hf)
  have fold : Proceeds CompileError.Decided (fun _ => True)
      (r.fixups.toList.foldlM (applyFixup c.program) t) := by
    refine h.foldlM_of (P := fun t : TypeTables => t.layout.Monomorphic)
      (fun t ht f hf => proceeds_applyFixup hp ht (hfixups f hf)) (fun t ht f hf r t' r' hok => ?_) t ht
    obtain ⟨value, hvalue, -⟩ := applyFixup_ok hok
    exact (proceeds_operandValue hp r (hfixups f hf)).ok ht hvalue
  refine step (a := r) (t := r) rfl rfl (Nat.le_refl _) ?_
  refine step (a := ⟨⟩) rfl rfl (Nat.le_refl _) ?_
  rw [← Array.foldlM_toList]
  exact h.bind fold (fun _ => h.pure _) _ trivial Nat.zero_lt_one

/-! ## The link -/

theorem bindSlots_monomorphic {iterations : Nat} (hr : Monomorphic c.program first r)
    (hbinding : Binding c.program [] r) (h : bindSlots c r = .ok iterations r') :
    Monomorphic c.program first r' ∧ r'.slots.size ≤ c.program.methods.size ∧
      r'.classes.size ≤ c.program.types.size + 1 ∧
      iterations = r'.slots.size * r'.classes.size := by
  obtain ⟨pairs, hbinds, hiterations, hbound, hcovers, -⟩ := bindSlots_ok hbinding h
  have hr' := hr.binds hp hbinds
  exact ⟨hr', hr'.slots_le hbound.named, hr'.classes_le hbound.distinct,
    hiterations.symm.trans hcovers.length⟩

theorem link_error (hr : Monomorphic c.program first r) (hbinding : Binding c.program [] r)
    (h : link c r = .error e r') :
    e.Decided ∨ e = .limitExceeded "link iterations" c.options.maxLinkIterations ∧
      c.options.maxLinkIterations < c.program.methods.size * (c.program.types.size + 1) := by
  obtain h | ⟨iterations, r₁, hbind, h⟩ := state_bind_error.1 h
  · exact bindSlots_error hp hr hbinding h
  · have hr₁ := (bindSlots_monomorphic hp hr hbinding hbind).1
    obtain ⟨methods, hblock⟩ := (blocks_blockCallers r₁).rest
    have hr₂ : Monomorphic c.program first r₁.blockCallers :=
      hblock ▸ (kept_monomorphic c.program first).methods methods hr₁
    obtain ⟨htables, hlayout⟩ := tables_monomorphic hp hr₂
    have hx := parallel_proceeds (E := CompileError.Decided) (I := fun _ : Registry => True)
    refine .inl (error_of_agreeAt (I := fun _ => True) ?_ h)
    refine step (a := ⟨⟩) (t := r₁.blockCallers) rfl rfl (Nat.le_refl _) ?_
    generalize r₁.blockCallers = r₂ at hr₂ htables hlayout ⊢
    refine step (a := r₂) (t := r₂) rfl rfl (Nat.le_refl _) ?_
    have native := hx.ofExcept (decides_checkNative r₂) r₂ trivial Nat.zero_lt_one
    refine native.bind fun _ r₃ hok => ?_
    obtain ⟨-, rfl⟩ := state_ofExcept_ok.1 hok
    refine step (a := r₂) (t := r₂) rfl rfl (Nat.le_refl _) ?_
    refine (hx.ofExcept htables r₂ trivial Nat.zero_lt_one).bind fun t r₃ hok => ?_
    obtain ⟨ht, rfl⟩ := state_ofExcept_ok.1 hok
    exact (agreeAt_applyFixups hp hr₂ (hlayout t ht)).bind fun _ _ _ => agreeAt_pure trivial

theorem compileEntry_monomorphic (hentry : entry.owner.isMonomorphic) :
    (∀ e r, compileEntry c entry {} = .error e r → e.Decided) ∧
      ∀ index r, compileEntry c entry {} = .ok index r →
        (∃ first, Monomorphic c.program first r) ∧ Binding c.program [] r := by
  obtain ⟨first, hproceeds⟩ := proceeds_compileEntry hp hentry
  exact ⟨fun e r h => hproceeds.error (.empty _ _) h,
    fun index r h => ⟨⟨first, hproceeds.ok (.empty _ _) h⟩, binding_of_compileEntry h⟩⟩

end

end Registry

/-! ## Builds -/

namespace BuildContext

open Registry

variable {c : BuildContext}

theorem compileAndLink_error (hp : c.program.Monomorphic)
    (hentry : entry.owner.isMonomorphic) (h : c.compileAndLink entry {} = .error e r) :
    e.Decided ∨ e = .limitExceeded "link iterations" c.options.maxLinkIterations ∧
      c.options.maxLinkIterations < c.program.methods.size * (c.program.types.size + 1) := by
  obtain ⟨herror, hok⟩ := compileEntry_monomorphic hp hentry
  obtain h | ⟨index, r₁, hcompile, h⟩ := state_bind_error.1 h
  · exact .inl (herror e r h)
  · obtain ⟨⟨first, hr⟩, hbinding⟩ := hok index r₁ hcompile
    obtain h | ⟨linked, r₂, -, h⟩ := state_bind_error.1 h
    · exact link_error hp hr hbinding h
    · cases h

theorem compileAndLink_sizes (hp : c.program.Monomorphic)
    (hentry : entry.owner.isMonomorphic) {index : Nat} {linked : Linked}
    (h : c.compileAndLink entry {} = .ok (index, linked) r) :
    linked.iterations = r.slots.size * r.classes.size ∧ r.slots.size ≤ c.program.methods.size ∧
      r.classes.size ≤ c.program.types.size + 1 := by
  obtain ⟨index', r₁, hcompile, h⟩ := state_bind_ok.1 h
  obtain ⟨linked', r₂, hlink, h⟩ := state_bind_ok.1 h
  obtain ⟨h, rfl⟩ := state_pure_ok.1 h
  cases h
  obtain ⟨⟨first, hr⟩, hbinding⟩ := (compileEntry_monomorphic hp hentry).2 index r₁ hcompile
  obtain ⟨r₃, s, t, hbind, -, -, hfold, -⟩ := link_ok hlink
  obtain ⟨-, hslots, hclasses, hiterations⟩ := bindSlots_monomorphic hp hr hbinding hbind
  -- what follows leaves the slots and the classes as they are
  obtain ⟨methods, hblock⟩ := (blocks_blockCallers r₃).rest
  obtain ⟨hslots', hclasses'⟩ := applyFixups_slots hfold
  have hslots' : r₂.slots = r₃.slots := by rw [hslots', hblock]
  have hclasses' : r₂.classes = r₃.classes := by rw [hclasses', hblock]
  rw [hslots', hclasses']
  exact ⟨hiterations, hslots, hclasses⟩

end BuildContext

/-- A ring is a coil and a coil is a ring, their areas and the program call each other in a circle, and
a cell holds a cell. -/
def spiral : BuildContext where
  program := {
    types := #[
      { name := "Shape", kind := .interfaceType, interfaces := [.named ⟨0⟩ []], methods := [⟨0⟩] },
      { name := "Ring", base := some (.named ⟨2⟩ []), interfaces := [.named ⟨0⟩ []]
        methods := [⟨1⟩, ⟨2⟩] },
      { name := "Coil", base := some (.named ⟨1⟩ []), methods := [⟨3⟩, ⟨4⟩] },
      { name := "Cell", kind := .structType
        fields := [{ name := "inner", type := .named ⟨3⟩ [] }] },
      { name := "P", methods := [⟨5⟩] }]
    methods := #[
      { name := "Area", declaring := ⟨0⟩, ret := .primitive .i32, isAbstract := true
        isVirtual := true },
      { name := ".ctor", declaring := ⟨1⟩, body := some { code := #[{ op := .ret }] } },
      { name := "Area", declaring := ⟨1⟩, ret := .primitive .i32, isVirtual := true
        body := some { code := #[{ op := .newObject ⟨.named ⟨2⟩ [], ".ctor", [], .void, true⟩ },
          { op := .call true ⟨.named ⟨0⟩ [], "Area", [], .primitive .i32, true⟩ },
          { op := .ret }] } },
      { name := ".ctor", declaring := ⟨2⟩, body := some { code := #[{ op := .ret }] } },
      { name := "Area", declaring := ⟨2⟩, ret := .primitive .i32, isVirtual := true
        body := some { code := #[
          { op := .call false ⟨.named ⟨4⟩ [], "Main", [], .primitive .i32, false⟩ },
          { op := .ret }] } },
      { name := "Main", declaring := ⟨4⟩, ret := .primitive .i32, isStatic := true
        body := some { locals := [.named ⟨3⟩ []], code := #[
          { op := .slot .locals .load 0 }, { op := .box (.named ⟨3⟩ []) }, { op := .pop },
          { op := .newObject ⟨.named ⟨1⟩ [], ".ctor", [], .void, true⟩ },
          { op := .call true ⟨.named ⟨0⟩ [], "Area", [], .primitive .i32, true⟩ },
          { op := .ret }] } }] }

def spiralEntry : MethodRef := ⟨.named ⟨4⟩ [], "Main", [], .primitive .i32, false⟩

/-- The registry after the link. -/
def spiralLinked : Registry := stateAfter (spiral.compileAndLink spiralEntry) {}

end DeviceCode
