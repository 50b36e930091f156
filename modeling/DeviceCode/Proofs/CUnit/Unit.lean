import DeviceCode.Proofs.CUnit.Function
import DeviceCode.Proofs.Image.Linked
import DeviceCode.Proofs.Registry.Blocked

/-!
# The C unit of a build

Every method of a linked build that has a plan can be written, since what the plan was made on is known
after the link as well (`Registry.Installed.serves`). Main statement: `BuildContext.unit_agrees`, a build
does not depend on whether the C unit is asked for, and the unit is closed: it defines the methods that
it calls, goes to labels that it has, and declares its temporaries.
-/

namespace DeviceCode

open Registry

open List

variable {index i : Nat} {methods : Array CompiledMethod} {m : CompiledMethod} {linked : Linked}
  {plan : CPlan}

/-! ## Planned methods -/

namespace Registry

variable {c : BuildContext} {r : Registry} {t : TypeTables} {d : MethodDef} {body : Body}
  {l : Lowering} {ops : List LoweredOp} {value : Nat → Nat → LinkOperand → UInt16}

theorem Installed.serves (h : Installed c r t m d body l ops value) (hcallers : CallersBlocked r)
    (hm : r.methods[index]? = some m) (hfree : m.cStatus.isBlocked = false)
    (hframed : Framed methods r.methods) (chunks : Array Chunk) :
    CScope.Serves ⟨methods, c.builtins, none, { m with chunks, cStatus := .undecided }⟩
      ⟨r.methods, c.builtins, some t.layout, m⟩ := by
  refine ⟨rfl, rfl, rfl, rfl, rfl, fun i key region tag hsite => ?_,
    fun i k pops storage target hsite htarget => ?_⟩
  · obtain ⟨o, op, ho, hsite, hlowers⟩ := h.exists_op_of_site hsite
    have hresolves : t.layout.fieldOffset? key = some _ :=
      h.links i o ho (2, .fieldOffset key) (hlowers.offset_link hsite)
    simp [CEmitter.staticOffset, hresolves]
  · obtain ⟨target', htarget', hstatus⟩ := h.exists_plan_of_site hcallers hm hfree hsite
    obtain ⟨e, he, hframe⟩ := hframed k target htarget
    obtain rfl := Option.some.inj (htarget'.symm.trans he)
    simp only [frame, Prod.mk.injEq] at hframe
    refine ⟨target', htarget', hframe.2.1, hframe.2.2.2, ?_⟩
    rw [CStatus.isBlocked, Option.isSome_eq_false_iff] at hstatus
    exact Option.isNone_iff_eq_none.1 hstatus

/-- **The plan of a method is sound after the link.** -/
theorem Installed.sound (h : Installed c r t m d body l ops value) (hcallers : CallersBlocked r)
    (hm : r.methods[index]? = some m) (hplan : m.cStatus = .planned plan) :
    plan.Sound ⟨r.methods, c.builtins, some t.layout, m⟩ body.code := by
  obtain ⟨chunks, methods, hframed, hok⟩ := h.planned plan hplan
  have hprofile : StackProfile.Describes body.code (effectOf m) m.profile :=
    StackProfile.describes_of_analyze h.profile
  exact (CPlan.sound_of_ofMethod
    (s := ⟨methods, c.builtins, none, { m with chunks, cStatus := .undecided }⟩) rfl hok hprofile).mono
    (h.serves hcallers hm (by rw [hplan]; rfl) hframed chunks)

end Registry

/-! ## Units -/

namespace CUnit

/-- The functions are closed, and the methods that they call are defined. -/
structure Closed (u : CUnit) : Prop where
  functions : ∀ f ∈ u.functions, f.Closed
  callees : ∀ f ∈ u.functions, ∀ st ∈ f.body, ∀ k, st.callee? = some k →
    ∃ g ∈ u.functions, g.index = k

/-- The function of the method at an index, if it has a plan. -/
def functionFor (c : BuildContext) (methods : Array CompiledMethod) (layout : LayoutTable)
    (item : CompiledMethod × Nat) : Except CompileError (Option CFunction) :=
  match item.1.cStatus.plan? with
  | none => pure none
  | some plan =>
    match (c.program.methodDef? item.1.method).bind (·.body) with
    | none => throw (CompileError.unresolvableReference "method body" item.1.name)
    | some body =>
      match CFunction.ofPlan ⟨methods, c.builtins, some layout, item.1⟩ item.2 plan body.code with
      | .ok f => return some f
      | .error reason => throw (.nativeCodeRequired item.1.name reason.message)

theorem ofMethods_eq (c : BuildContext) (methods : Array CompiledMethod) (layout : LayoutTable) :
    ofMethods c methods layout =
      (methods.toList.zipIdx.filterMapM (functionFor c methods layout)).map CUnit.mk := by
  show (methods.toList.zipIdx.filterMapM (functionFor c methods layout) >>= fun functions =>
    pure (CUnit.mk functions)) = _
  cases methods.toList.zipIdx.filterMapM (functionFor c methods layout) <;> rfl

/-- The indices of the methods that have no obstacle. -/
def writable (obstacles : List (Option CObstacle)) : List Nat :=
  (obstacles.zipIdx.filter (·.1.isNone)).map (·.2)

theorem getElem?_of_mem_zipIdx (h : (m, i) ∈ methods.toList.zipIdx) : methods[i]? = some m := by
  rw [← Array.getElem?_toList]
  exact mem_zipIdx_iff_getElem?.1 h

section
open Registry

variable {c : BuildContext} {r : Registry} {t : TypeTables}
  (hcallers : CallersBlocked r) (hinstalled : ∀ i < r.methods.size, ∃ m d body l ops value,
    r.methods[i]? = some m ∧ Installed c r t m d body l ops value)
include hcallers hinstalled

theorem exists_function (hm : r.methods[i]? = some m)
    (hplan : m.cStatus = .planned plan) : ∃ d body f, c.program.methodDef? m.method = some d ∧
      d.body = some body ∧
      CFunction.ofPlan ⟨r.methods, c.builtins, some t.layout, m⟩ i plan body.code = .ok f ∧
      f.index = i ∧ f.Closed ∧ ∀ st ∈ f.body, ∀ k, st.callee? = some k →
        ∃ target, r.methods[k]? = some target ∧ target.cStatus.isBlocked = false := by
  obtain ⟨m', d, body, l, ops, value, hm', h⟩ := hinstalled i (Array.getElem?_eq_some_iff.1 hm).1
  obtain rfl := Option.some.inj (hm.symm.trans hm')
  have hsound := h.sound hcallers hm hplan
  obtain ⟨f, hf⟩ := CFunction.ofPlan_ok hsound i
  obtain ⟨hindex, hclosed, hcallees⟩ := CFunction.closed_ofPlan hsound hf
  refine ⟨d, body, f, h.method, h.source, hf, hindex, hclosed, fun st hst k hk => ?_⟩
  obtain ⟨j, pops, storage, hsite⟩ := hcallees st hst k hk
  exact h.exists_plan_of_site hcallers hm (by rw [hplan]; rfl) hsite

theorem functionFor_cases (hm : r.methods[i]? = some m) :
    m.cStatus.isBlocked = true ∧ functionFor c r.methods t.layout (m, i) = .ok none ∨
      m.cStatus.isBlocked = false ∧ ∃ f, functionFor c r.methods t.layout (m, i) = .ok (some f) ∧
        f.index = i ∧ f.Closed ∧ ∀ st ∈ f.body, ∀ k, st.callee? = some k →
          ∃ target, r.methods[k]? = some target ∧ target.cStatus.isBlocked = false := by
  unfold functionFor
  cases hstatus : m.cStatus with
  | undecided =>
    obtain ⟨m', d, body, l, ops, value, hm', h⟩ := hinstalled i (Array.getElem?_eq_some_iff.1 hm).1
    obtain rfl := Option.some.inj (hm.symm.trans hm')
    exact absurd hstatus h.decided
  | blocked reason => exact .inl ⟨rfl, rfl⟩
  | planned plan =>
    obtain ⟨d, body, f, hd, hbody, hf, hrest⟩ := exists_function hcallers hinstalled hm hstatus
    refine .inr ⟨rfl, f, ?_, hrest⟩
    simp only [CStatus.plan?, hd, Option.bind_some, hbody, hf]
    rfl

theorem functionFor_ok : ∀ x ∈ r.methods.toList.zipIdx, ∃ y, functionFor c r.methods t.layout x = .ok y :=
  fun ⟨_, _⟩ hx => (functionFor_cases hcallers hinstalled (getElem?_of_mem_zipIdx hx)).elim
    (fun h => ⟨none, h.2⟩) fun ⟨_, f, hf, _⟩ => ⟨some f, hf⟩

/-- **The unit of a linked build**: a function for every method that is not blocked. -/
theorem ofMethods_ok : ∃ u, ofMethods c r.methods t.layout = .ok u ∧ u.Closed ∧
    u.functions.map (·.index) = writable (r.methods.toList.map (·.cStatus.reason?)) := by
  have hall := functionFor_ok hcallers hinstalled
  generalize hfunction : functionFor c r.methods t.layout = function at hall
  have hitem := fun {i : Nat} {m : CompiledMethod} (hm : r.methods[i]? = some m) =>
    functionFor_cases hcallers hinstalled hm
  rw [hfunction] at hitem
  refine ⟨_, by rw [ofMethods_eq, hfunction, except_filterMapM_ok hall]; rfl, ?_, ?_⟩
  · -- a function of the unit is the function of a method, and the other way around
    have hmem : ∀ {f : CFunction}, f ∈ (r.methods.toList.zipIdx.filterMap fun x =>
        (function x).toOption.join) → f.Closed ∧ ∀ st ∈ f.body, ∀ k, st.callee? = some k →
          ∃ target, r.methods[k]? = some target ∧ target.cStatus.isBlocked = false := by
      intro f hf
      obtain ⟨⟨m, i⟩, hx, hf⟩ := mem_filterMap.1 hf
      obtain ⟨-, hnone⟩ | ⟨-, f', hsome, -, hrest⟩ := hitem (getElem?_of_mem_zipIdx hx)
      · rw [hnone] at hf
        cases hf
      · rw [hsome] at hf
        cases hf
        exact hrest
    refine ⟨fun f hf => (hmem hf).1, fun f hf st hst k hk => ?_⟩
    obtain ⟨target, htarget, hfree⟩ := (hmem hf).2 st hst k hk
    obtain ⟨hblocked, -⟩ | ⟨-, g, hsome, hindex, -⟩ := hitem htarget
    · rw [hfree] at hblocked
      cases hblocked
    · refine ⟨g, mem_filterMap.2 ⟨(target, k), ?_, by rw [hsome]; rfl⟩, hindex⟩
      rw [mem_zipIdx_iff_getElem?, Array.getElem?_toList]
      exact htarget
  · have hindex : ∀ x ∈ r.methods.toList.zipIdx, ((function x).toOption.join).map (·.index) =
        if x.1.cStatus.reason?.isNone then some x.2 else none := by
      rintro ⟨m, i⟩ hx
      obtain ⟨hblocked, hnone⟩ | ⟨hfree, f, hsome, hindex, -⟩ := hitem (getElem?_of_mem_zipIdx hx)
      · rw [hnone, if_neg (by rw [Option.isNone_iff_eq_none]; exact Option.isSome_iff_ne_none.1 hblocked)]
        rfl
      · rw [CStatus.isBlocked, Option.isSome_eq_false_iff] at hfree
        rw [hsome, if_pos hfree]
        exact congrArg some hindex
    rw [map_filterMap, filterMap_congr hindex, writable, zipIdx_map, filter_map,
      map_map]
    rw [← filterMap_filter, ← filterMap_eq_map]
    rfl

end

end CUnit

/-! ## Builds -/

/-- The context with the choice whether to write C. -/
def BuildContext.emitting (c : BuildContext) (emitC : Bool) : BuildContext :=
  { c with options := { c.options with emitC } }

/-- The build without its C unit. -/
def Build.withoutC (b : Build) : Build := { b with cUnit := none }

namespace Registry

variable (c : BuildContext) (emitC : Bool)

theorem compileWithin_emitting : ∀ fuel : Nat,
    compileWithin (c.emitting emitC) fuel = compileWithin c fuel
  | 0 => rfl
  | n + 1 => by
    funext id typeArgs
    rw [compileWithin, compileWithin_emitting n]
    rfl

theorem compileMethod_emitting : compileMethod (c.emitting emitC) = compileMethod c := by
  funext id typeArgs
  rw [compileMethod, compileWithin_emitting]
  rfl

theorem compileEntry_emitting : compileEntry (c.emitting emitC) = compileEntry c := by
  unfold compileEntry
  rw [compileMethod_emitting]
  rfl

theorem bindPairs_emitting : ∀ bound : Nat,
    bindPairs (c.emitting emitC) bound = bindPairs c bound
  | 0 => rfl
  | n + 1 => by
    have hbind : bind (c.emitting emitC) = bind c := by
      unfold bind
      rw [compileMethod_emitting]
      rfl
    funext q
    rw [bindPairs, bindPairs, bindPairs_emitting n, hbind]

theorem link_emitting : link (c.emitting emitC) = link c := by
  have hslots : bindSlots (c.emitting emitC) = bindSlots c := by
    unfold bindSlots
    rw [bindPairs_emitting]
    rfl
  unfold link
  rw [hslots]
  rfl

end Registry

namespace BuildContext

theorem compileAndLink_emitting (c : BuildContext) (emitC : Bool) :
    (c.emitting emitC).compileAndLink = c.compileAndLink := by
  unfold compileAndLink
  rw [compileEntry_emitting, link_emitting]

variable {c : BuildContext} {start : MethodRef} {r : Registry} (emitC : Bool)

theorem build_of_error {e : CompileError} (h : c.compileAndLink start {} = .error e r) :
    (c.emitting emitC).build start = .error e := by
  unfold build
  rw [compileAndLink_emitting, EStateM.run, h]

theorem build_of_ok (h : c.compileAndLink start {} = .ok (index, linked) r) :
    (c.emitting emitC).build start = Build.ofLinked (c.emitting emitC) r linked index := by
  unfold build
  rw [compileAndLink_emitting, EStateM.run, h]

end BuildContext

namespace Build

/-- The indices of the methods that have no obstacle. -/
def writable (b : Build) : List Nat := CUnit.writable (b.methods.map (·.obstacle))

theorem obstacles_eq {methods : List CompiledMethod} {offsets : List UInt32}
    (h : methods.length ≤ offsets.length) :
    ((methods.zip offsets).map fun (m, offset) => summary m offset).map (·.obstacle) =
      methods.map (·.cStatus.reason?) := by
  rw [map_map]
  conv_rhs => rw [← map_fst_zip h, map_map]
  rfl

theorem ofLinked_emitting {c : BuildContext} {r : Registry} {entry : Nat} {u : CUnit}
    (hu : CUnit.ofMethods c r.methods linked.layout = .ok u) :
    (ofLinked (c.emitting true) r linked entry).map withoutC =
        ofLinked (c.emitting false) r linked entry ∧
      ∀ b, ofLinked (c.emitting true) r linked entry = .ok b → b.cUnit = some u ∧
        b.writable = CUnit.writable (r.methods.toList.map (·.cStatus.reason?)) := by
  have hu' : CUnit.ofMethods (c.emitting true) r.methods linked.layout = .ok u := hu
  have himage : ∀ emitC, Image.ofLinked (c.emitting emitC) r linked entry =
      Image.ofLinked c r linked entry := fun _ => rfl
  unfold ofLinked
  rw [himage, himage]
  cases hlinked : Image.ofLinked c r linked entry with
  | error e => exact ⟨rfl, fun b hb => by cases hb⟩
  | ok image =>
    have hemits : (c.emitting true).options.emitC = true := rfl
    have hskips : (c.emitting false).options.emitC = false := rfl
    simp only [except_ok_bind, hemits, hskips, if_true, hu']
    refine ⟨rfl, fun b hb => ?_⟩
    cases hb
    refine ⟨rfl, congrArg CUnit.writable (obstacles_eq ?_)⟩
    -- every method has a place in the image
    obtain ⟨-, -, -, hmethods, -⟩ := Image.ofLinked_ok hlinked
    obtain ⟨-, -, hall⟩ := Image.methodRecords_ok hmethods
    simp [Image.codeOffsets, Image.methodStarts, hall.length_eq]

end Build

end DeviceCode
