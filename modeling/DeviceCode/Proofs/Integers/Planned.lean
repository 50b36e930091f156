import DeviceCode.Proofs.Integers.Core
import DeviceCode.Proofs.Registry.Blocked

/-!
# Builds of the core

In a build whose methods are all in the core no method is blocked: every method has a plan for C. A method
is planned on what the registry holds when its body is lowered, where the methods that it calls are planned
already or in the works. `Registry.Plans` says that compiling keeps a registry free of blocked methods if
what it comes to is in the core. Main statement: `free_of_link`.
-/

namespace DeviceCode

variable {a b : Array CompiledMethod} {c : BuildContext} {m : CompiledMethod} {r r' : Registry}
  {index : Nat}

/-! ## The core in other registries -/

namespace Registry

theorem siteAgrees_of_framed {builtins : BuiltinTable} (h : Framed a b) {op : Op} {site : Site}
    (hb : siteAgrees builtins b op site = true) : siteAgrees builtins a op site = true := by
  unfold siteAgrees at hb ⊢
  split at hb
  · rename_i k _ _
    cases hk : a[k]? with
    | none => rfl
    | some e =>
      obtain ⟨e', he', hframe⟩ := h k e hk
      simp only [Registry.frame, Prod.mk.injEq] at hframe
      rw [he', Option.all_some, hframe.2.1, hframe.2.2.2] at hb
      exact hb
  all_goals exact hb

end Registry

/-- What the core looks at in a method. -/
structure CompiledMethod.Alike (m m' : CompiledMethod) : Prop where
  method : m'.method = m.method
  args : m'.args = m.args
  locals : m'.locals = m.locals
  ret : m'.ret = m.ret
  sites : m'.sites = m.sites ∨ m'.sites = #[]

theorem CompiledMethod.Core.of_alike {m' : CompiledMethod} (h : m.Core c b) (hm : m.Alike m')
    (hframed : Registry.Framed a b) : m'.Core c a := by
  refine ⟨hm.args ▸ h.args, hm.locals ▸ h.locals, hm.ret ▸ h.result, hm.args ▸ h.small, fun e he => ?_⟩
  have hmem : e ∈ Registry.operations c m := by
    unfold Registry.operations at he ⊢
    rw [hm.method] at he
    rcases hm.sites with hsites | hsites
    · rwa [hsites] at he
    · rw [hsites] at he
      split at he <;> simp at he
  obtain ⟨hop, hsite, hagrees⟩ := h.operations e hmem
  exact ⟨hop, hsite, Registry.siteAgrees_of_framed hframed hagrees⟩

namespace Registry

/-- All methods are in the core. -/
def Core (c : BuildContext) (r : Registry) : Prop :=
  ∀ (i : Nat) m, r.methods[i]? = some m → m.Core c r.methods

theorem core_of_isInt32 (h : r.isInt32 c = true) : Core c r := by
  intro i m hm
  rw [isInt32, Array.all_eq_true_iff_forall_mem] at h
  exact CompiledMethod.core_iff.1 (h m (Array.mem_of_getElem? hm))

theorem Core.of_extends (h : Core c r') (hr : Extends r r') :
    Core c r := fun i m hm =>
  (h i m (hr.getElem? hm)).of_alike ⟨rfl, rfl, rfl, rfl, .inl rfl⟩ hr.framed

/-! ## Compiling -/

/-- If all methods are in the core, none has become blocked. -/
structure Plans (c : BuildContext) (r r' : Registry) : Prop where
  extension : Extends r r'
  free : Core c r' → Free r → Free r'

theorem Plans.of_methods (h : Extends r r') (hmethods : r'.methods = r.methods) : Plans c r r' :=
  ⟨h, fun _ hfree i m hm => hfree i m (hmethods ▸ hm)⟩

theorem growth_plans (c : BuildContext) : Growth (Plans c) where
  refl r := .of_methods (growth_extends.refl r) rfl
  trans h₁ h₂ := ⟨growth_extends.trans h₁.extension h₂.extension, fun hcore hfree =>
    h₂.free hcore (h₁.free (hcore.of_extends h₂.extension) hfree)⟩

theorem Notes.plans (h : Notes r r') (c : BuildContext) : Plans c r r' :=
  .of_methods h.extension h.methods

theorem allows_plans {l : Lowering} (hcompile : Compiler.Leads l.compile (Plans c)) :
    l.Allows (fun _ => True) fun x => Leads (Plans c) x where
  closed := (growth_plans c).closed_leads
  compile := hcompile
  field {op f} _ _ := by
    refine (Growth.modify fun r => .of_methods (extends_recordField f r) ?_).leads
    unfold recordField
    split <;> rfl
  discover t := (Growth.modify fun r => (notes_discoverClass _ t r).plans c).leads
  root t := (Growth.modify fun r => (notes_addLayoutRoot t r).plans c).leads
  slot _ _ _ _ _ h := (notes_internSlot h).plans c
  fixups fs := (Growth.modify fun r => .of_methods (extends_fixups fs r) rfl).leads

/-- A method of the core whose body is lowered has a plan, if its callees can be called. -/
theorem exists_plan {compile : Compiler} (hextends : compile.Keeps Extends) (hlt : compile.Bounded)
    {e : CompiledMethod} {d : MethodDef} {body : Body} {ops : List LoweredOp} {r₁ : Registry}
    {methods : Array CompiledMethod} (hd : c.program.methodDef? e.method = some d)
    (hbody : d.body = some body)
    (hruns : (loweringOf c compile index m body.code).Runs body.code.toList.zipIdx ops r r₁)
    (hargs : e.args = m.args) (hlocals : e.locals = m.locals)
    (hsites : e.sites.toList = ops.map (·.site))
    (hprofile : StackProfile.analyze body.code (effectOf e) = .ok e.profile)
    (hcore : e.Core c r'.methods) (hframed : Framed methods r'.methods)
    (hsize : r₁.methods.size ≤ methods.size)
    (hcallable : ∀ (k : Nat) target, methods[k]? = some target → target.Callable) :
    ∃ plan, CPlan.ofMethod methods c.builtins { e with cStatus := .undecided } body.code = .ok plan := by
  obtain ⟨-, hcallees⟩ := callees_of_runs hlt hextends hruns
  have hdescribes : StackProfile.Describes body.code (effectOf { e with cStatus := .undecided })
      e.profile := StackProfile.describes_of_analyze hprofile
  refine CPlan.ofMethod_int32 (s := ⟨methods, c.builtins, none, { e with cStatus := .undecided }⟩)
    (l := loweringOf c compile index m body.code)
    ⟨rfl, hcallable, hcore.args, hcore.locals, hcore.result⟩ hdescribes fun i instruction hi => ?_
  have hitem : body.code.toList.zipIdx[i]? = some (instruction, i) := by simp [hi]
  obtain ⟨o, ho, hlowers⟩ := forall₂_getElem? (lowers_of_runs hruns) hitem
  have hsite : e.sites[i]? = some o.site := by
    rw [← Array.getElem?_toList, hsites, List.getElem?_map, ho]
    rfl
  obtain ⟨hop, hint, hagrees⟩ := hcore.operations _ (mem_operations hd hbody hi hsite)
  refine ⟨o, hlowers, hargs.symm, hlocals.symm, hsite, ⟨hop, hint⟩,
    siteAgrees_of_framed hframed hagrees, fun k pops storage hs => ?_⟩
  exact Nat.lt_of_lt_of_le
    (hcallees o (List.mem_of_getElem? ho) k (hlowers.callee_of_site hs)).2 hsize

section
variable {compile : Compiler}
  (hextends : compile.Keeps Extends)
  (hlt : compile.Bounded)
  (hcompile : compile.Leads (Plans c))
include hextends hlt hcompile

theorem complete_free {types : FrameTypes} {d : MethodDef} {body : Body} {u : Unit}
    (hm : r.methods[index]? = some m) (hu : m.cStatus = .undecided) (hsites : m.sites = #[])
    (hd : c.program.methodDef? m.method = some d) (hbody : d.body = some body)
    (h : complete c compile index m types body.code r = .ok u r') (hcore : Core c r')
    (hfree : Free r) : Free r' := by
  obtain ⟨e, ops, r₁, methods, hfills⟩ := complete_entry hextends hm hu h
  have hframe := hfills.frame
  have hidentity := hfills.identity
  have hgrown := (allows_plans (l := loweringOf c compile index m body.code) hcompile).lowerBody
    (fun _ _ => trivial) _ _ _ hfills.lowered
  have hm₁ := hgrown.extension.getElem? hm
  have hentry : ∀ {k : Nat} {e' : CompiledMethod}, k ≠ index → r₁.methods[k]? = some e' →
      r'.methods[k]? = some e' := fun hk he' => by
    rw [hfills.entries, if_neg hk]
    exact he'
  have hself : r'.methods[index]? = some e := by rw [hfills.entries, if_pos rfl]
  have hown := hcore index e hself
  -- before the method is planned its callers see the same of it, and it has no sites
  have hframed₁ := framed_of_entries hm₁ hframe hfills.entries
  have hsize := (framed_of_entries hm₁ (by exact hframe) hfills.planning).size_le
  simp only [Registry.frame, Registry.identity, Prod.mk.injEq] at hframe hidentity
  obtain ⟨-, hargs, hlocals, hret⟩ := hframe
  have hfree₁ : Free r₁ := by
    refine hgrown.free (fun k e' he' => ?_) hfree
    by_cases hk : k = index
    · subst hk
      cases hm₁.symm.trans he'
      exact hown.of_alike ⟨hidentity.2.1.symm, hargs.symm, hlocals.symm, hret.symm, .inr hsites⟩ hframed₁
    · exact (hcore k e' (hentry hk he')).of_alike ⟨rfl, rfl, rfl, rfl, .inl rfl⟩ hframed₁
  have hcallable : ∀ (k : Nat) target, methods[k]? = some target → target.Callable := by
    intro k target htarget
    rw [hfills.planning] at htarget
    split at htarget
    · cases htarget
      exact ⟨rfl, hown.args, hown.result⟩
    · rename_i hk
      have hcallee := hcore k target (hentry hk htarget)
      exact ⟨hfree₁ k target htarget, hcallee.args, hcallee.result⟩
  obtain ⟨plan, hp⟩ := exists_plan hextends hlt (by rw [hidentity.2.1]; exact hd) hbody
    hfills.runs hargs hlocals hfills.sites hfills.profile hown hfills.framed hsize hcallable
  intro i m' hi
  rw [hfills.entries] at hi
  split at hi
  · cases hi
    rw [(hfills.planned plan).2 hp]
    rfl
  · exact hfree₁ i m' hi

theorem plans_compileWith (id : MethodId) (typeArgs : List TypeRef) :
    Leads (Plans c) (compileWith c compile id typeArgs) := by
  intro r index r' h
  refine ⟨(keeps_compileWith hextends id typeArgs).ok h, fun hcore hfree => ?_⟩
  obtain ⟨d, hd, ⟨-, rfl⟩ | ⟨-, rfl, body, r₁, slots, hbody, -, -, -, hpush, hcomplete⟩⟩ :=
    compileWith_ok h
  · exact hfree
  refine complete_free hextends hlt hcompile (hpush ▸ Array.getElem?_push_size) rfl rfl hd hbody
    hcomplete hcore fun i m hi => ?_
  rw [hpush, Array.getElem?_push] at hi
  split at hi
  · cases hi
    rfl
  · exact hfree i m hi

end

theorem admitsBinding_plans (c : BuildContext) : AdmitsBinding c fun x => Leads (Plans c) x :=
  .of_compileWith plans_compileWith (growth_plans c) fun h => h.plans c

/-! ## Linked builds -/

/-- **In a linked build of the core no method is blocked.** -/
theorem free_of_link {start : MethodRef} {linked : Linked}
    (hentry : compileEntry c start {} = .ok index r) (hlink : link c r = .ok linked r')
    (hcore : Core c r') : Free r' := by
  obtain ⟨r₁, hbind, hstanding⟩ := standing_of_link hlink
  obtain ⟨r₂, hbind', hsize, hmethods⟩ := methods_of_link hentry hlink
  cases hbind.symm.trans hbind'
  -- the link changes the code and the status only
  have hkept : ∀ (k : Nat) e, r₁.methods[k]? = some e → ∃ e', r'.methods[k]? = some e' ∧
      frame e' = frame e ∧ e'.Alike e := by
    intro k e he
    obtain ⟨m, -, -, -, -, chunks, status, -, hm, -, hlinked, -⟩ :=
      hmethods k (hsize ▸ (Array.getElem?_eq_some_iff.1 he).1)
    cases he.symm.trans hm
    exact ⟨_, hlinked, rfl, rfl, rfl, rfl, rfl, .inl rfl⟩
  have hframed : Framed r₁.methods r'.methods := fun k e he =>
    (hkept k e he).imp fun _ h => ⟨h.1, h.2.1⟩
  have hplans := (growth_plans c).trans ((admitsBinding_plans c).compileEntry start _ _ _ hentry)
    ((admitsBinding_plans c).bindSlots _ _ _ hbind)
  have hfree : Free r₁ := by
    refine hplans.free (fun k e he => ?_) (by simp [Free])
    obtain ⟨e', he', -, halike⟩ := hkept k e he
    exact (hcore k e' he').of_alike halike hframed
  intro i m hm
  have hsame := hstanding i
  rw [hfree.blockCallers, hm, eq_comm] at hsame
  obtain ⟨e, he, hstatus⟩ := Option.map_eq_some_iff.1 hsame
  rw [← (Prod.mk.inj hstatus).2]
  exact hfree i e he

end Registry

end DeviceCode
