import DeviceCode.Proofs.Integers.Planned
import DeviceCode.Proofs.Integers.Simulation
import DeviceCode.Proofs.Machine.Session

/-!
# The machine and the C unit agree

A build of the core, all of whose variables are signed integers of 32 bits, has a function in C for every
method (`exists_function?`), and its machine runs on integers (`Machine.runsIntegers_of_link`). Main
statement: `Machine.run_eq_cUnit`, whenever a run of the machine comes to a result, the function of the
method comes to the same result and leaves the same arguments and static fields.
-/

namespace DeviceCode

open Registry

open List

namespace CUnit

section
open Registry

variable {c : BuildContext} {r : Registry} {t : TypeTables}
  (hcallers : CallersBlocked r) (hinstalled : ∀ i < r.methods.size, ∃ m d body l ops value,
    r.methods[i]? = some m ∧ Installed c r t m d body l ops value)
include hcallers hinstalled

/-- **The function of a method that has a plan.** No other function has its index. -/
theorem exists_function? {u : CUnit} (hu : ofMethods c r.methods t.layout = .ok u) {i : Nat}
    {m : CompiledMethod} {plan : CPlan} (hm : r.methods[i]? = some m)
    (hplan : m.cStatus = .planned plan) : ∃ d body f, c.program.methodDef? m.method = some d ∧
      d.body = some body ∧
      CFunction.ofPlan ⟨r.methods, c.builtins, some t.layout, m⟩ i plan body.code = .ok f ∧
      u.function? i = some f := by
  have hfunctions : u.functions = r.methods.toList.zipIdx.filterMap fun x =>
      (functionFor c r.methods t.layout x).toOption.join := by
    rw [ofMethods_eq, except_filterMapM_ok (functionFor_ok hcallers hinstalled)] at hu
    cases hu
    rfl
  obtain ⟨d, body, f, hd, hbody, hf, hindex, -⟩ := exists_function hcallers hinstalled hm hplan
  have hfor : functionFor c r.methods t.layout (m, i) = .ok (some f) := by
    simp only [functionFor, hplan, CStatus.plan?, hd, Option.bind_some, hbody, hf]
    rfl
  have hmem : f ∈ u.functions := by
    rw [hfunctions]
    refine mem_filterMap.2 ⟨(m, i), ?_, by rw [hfor]; rfl⟩
    rw [mem_zipIdx_iff_getElem?, Array.getElem?_toList]
    exact hm
  refine ⟨d, body, f, hd, hbody, hf, ?_⟩
  unfold function?
  cases hfind : u.functions.find? (·.index == i) with
  | none => exact absurd (beq_iff_eq.2 hindex) (by simpa using find?_eq_none.1 hfind f hmem)
  | some g =>
    have hg := mem_of_find?_eq_some hfind
    have hgi : g.index = i := by simpa using find?_some hfind
    rw [hfunctions] at hg
    obtain ⟨⟨m', j⟩, hx, hg⟩ := mem_filterMap.1 hg
    have hm' := getElem?_of_mem_zipIdx hx
    obtain ⟨-, hnone⟩ | ⟨-, g', hsome, hindex', -⟩ := functionFor_cases hcallers hinstalled hm'
    · rw [hnone] at hg
      cases hg
    · rw [hsome] at hg
      cases hg
      cases hindex'.symm.trans hgi
      cases hm.symm.trans hm'
      cases hsome.symm.trans hfor
      rfl

end

end CUnit

/-! ## Linked builds of the core -/

namespace Registry

section
variable {c : BuildContext} {r : Registry} {t : TypeTables} {m : CompiledMethod} {d : MethodDef}
  {body : Body} {l : Lowering} {ops : List LoweredOp} {value : Nat → Nat → LinkOperand → UInt16}

variable {site : Site}

theorem Installed.site_int32 (h : Installed c r t m d body l ops value) (hcore : m.Core c r.methods)
    (hsite : site ∈ m.sites) : site.isInt32 = true := by
  obtain ⟨i, hi⟩ := Array.mem_iff_getElem?.1 hsite
  have hlength := h.length_ops
  have hlt : i < body.code.size := by
    have hops : (ops.map (·.site))[i]? = some site := by
      rw [← h.sites]
      simpa using hi
    have := (List.getElem?_eq_some_iff.1 hops).1
    rw [length_map] at this
    omega
  exact (hcore.operations _
    (mem_operations h.method h.source (Array.getElem?_eq_getElem hlt) hi)).2.1

end

section
variable {c : BuildContext} {start : MethodRef} {index : Nat} {r r' : Registry} {linked : Linked}
  (hentry : compileEntry c start {} = .ok index r) (hlink : link c r = .ok linked r')
  (hcore : Core c r')
include hentry hlink hcore

theorem site_int32 {m : CompiledMethod} (hm : m ∈ r'.methods) (hsite : site ∈ m.sites) :
    site.isInt32 = true := by
  obtain ⟨i, hi⟩ := Array.mem_iff_getElem?.1 hm
  obtain ⟨t, -, -, hinstalled⟩ := installed_of_link hentry hlink
  obtain ⟨m', d, body, l, ops, value, hm', h⟩ := hinstalled i (Array.getElem?_eq_some_iff.1 hi).1
  cases hi.symm.trans hm'
  exact h.site_int32 (hcore i m hi) hsite

theorem fieldsApart_of_core : r'.fieldsApart = true := by
  unfold fieldsApart
  simp only [Array.all_eq_true']
  intro m hm m' hm' site hsite site' hsite'
  have h := site_int32 hentry hlink hcore hm hsite
  have h' := site_int32 hentry hlink hcore hm' hsite'
  unfold regionsAgree
  split
  · simp only [Site.isInt32, Bool.and_eq_true] at h h'
    rw [h.1.1, h'.1.1]
    simp
  · rfl

theorem staticSlots_integers : linked.layout.staticSlots.Integers := by
  obtain ⟨fields, hserves, -, hused⟩ := serves_of_link hentry hlink
  refine ⟨hserves.tiled, fun s hs => ?_⟩
  obtain ⟨field, hfield, rfl⟩ := mem_map.1 hs
  obtain ⟨f, hf, -, storage, hstorage, htag⟩ := hserves.used field (Array.mem_toList_iff.1 hfield)
  obtain ⟨m, hm, site, hsite, storage', hstorage', rfl⟩ :=
    hused f (Array.mem_toList_iff.1 (mem_filter.1 hf).1)
  cases hstorage.symm.trans hstorage'
  have h := site_int32 hentry hlink hcore hm hsite
  simp only [Site.isInt32, Bool.and_eq_true, beq_iff_eq] at h
  exact htag.trans h.2

end

end Registry

variable {c : BuildContext} {linked : Linked}

theorem Build.exists_cUnit {r : Registry} {entry : Nat} {b : Build}
    (h : ofLinked c r linked entry = .ok b) (hemit : c.options.emitC = true) :
    ∃ u, b.cUnit = some u ∧ CUnit.ofMethods c r.methods linked.layout = .ok u := by
  obtain ⟨image, -, h⟩ := except_bind_ok.1 h
  rw [if_pos hemit] at h
  obtain ⟨unit, hunit, h⟩ := except_bind_ok.1 h
  obtain ⟨u, hu, rfl⟩ := except_functor_ok.1 hunit
  rw [except_pure_ok] at h
  subst h
  exact ⟨u, rfl, hu⟩

namespace Machine

/-- **The machine of a build of the core runs on integers**, and the unit has all its methods. -/
theorem runsIntegers_of_link {m : Machine} {start : MethodRef} {index : Nat}
    {r r' : Registry} {t : TypeTables} {u : CUnit}
    (hentry : Registry.compileEntry c start {} = .ok index r)
    (hlink : Registry.link c r = .ok linked r') (hcore : Registry.Core c r')
    (hsmall : linked.layout.staticSize < 65535) (hlayout : linked.layout = t.layout)
    (hslots : m.RunsSlots c r' t) (hu : CUnit.ofMethods c r'.methods linked.layout = .ok u) :
    m.RunsIntegers c r' t u := by
  have hcallers := callersBlocked_of_link hlink
  have hfree := free_of_link hentry hlink hcore
  have hstatics := staticSlots_integers hentry hlink hcore
  rw [hlayout] at hstatics hsmall hu
  refine ⟨hslots, fun k hk => ?_⟩
  obtain ⟨v, hv⟩ := hslots.methodAt hk
  have hmethod := hcore k v.entry hv.entry
  have hstatus := hfree k v.entry hv.entry
  cases hplan : v.entry.cStatus with
  | undecided => exact absurd hplan hv.installed.decided
  | blocked reason =>
    rw [hplan] at hstatus
    cases hstatus
  | planned plan =>
    obtain ⟨d, body, g, hd, hbody, hg, hfunction⟩ :=
      CUnit.exists_function? hcallers hslots.installed hu hv.entry hplan
    cases hd.symm.trans hv.installed.method
    cases hbody.symm.trans hv.installed.source
    obtain ⟨hret, hlocals, state, htext⟩ :=
      CFunction.text_ofPlan (hv.installed.sound hcallers hv.entry hplan) hg
    have htags : ∀ {list : SlotList}, (∀ slot ∈ list.slots, slot.tag = .i32) →
        ∀ s ∈ list.areaSlots.places, s.tag = .i32 := by
      intro list hall s hs
      obtain ⟨slot, hslot, rfl⟩ := mem_map.1 hs
      exact hall slot (Array.mem_toList_iff.1 hslot)
    refine ⟨v, g, plan, state, {
      hv with
      integers := ⟨rfl, ⟨⟨hv.tiled .arguments, htags hmethod.args⟩,
        ⟨hv.tiled .locals, htags hmethod.locals⟩, hstatics, hmethod.small, hsmall⟩, hmethod.result⟩
      core := fun i offset instruction o hat => ?_
      status := hstatus
      function := hfunction
      text := htext
      result := hret
      locals := hlocals }⟩
    have hmem := mem_operations hv.installed.method hv.installed.source hat.there hat.site
    exact ⟨(hmethod.operations _ hmem).1, (hmethod.operations _ hmem).2.1⟩

/-- **The machine and the C unit agree on the core.** The image of a build of the core can be read. If a
machine with it comes to the result of a method, whatever its arguments and static fields, the function
of the method comes to the same result, and leaves the same payloads in its arguments and in the static
region. -/
theorem run_eq_cUnit {c : BuildContext} {start : MethodRef} {entry : Nat} {linked : Linked}
    {r : Registry} {b : Build} (hcompile : c.compileAndLink start {} = .ok (entry, linked) r)
    (hbuild : Build.ofLinked c r linked entry = .ok b) (hemit : c.options.emitC = true)
    (hcore : r.isInt32 c = true) (hsmall : linked.layout.staticSize < 65535) :
    ∃ image u, LoadedImage.read b.bytes.toArray = .ok image ∧ b.cUnit = some u ∧
      ∀ (m m' : Machine) (index : Nat) (values : List Value) (outcome : Outcome),
        m.image = image → m.builtins = c.builtins → linked.layout.staticSlots.Intact m.statics →
        m.run index values = (.ok outcome, m') →
        ∃ e method area, r.methods[index]? = some e ∧ image.methods[index]? = some method ∧
          fillArguments index method.args values = .ok area ∧
          ∀ cargs cstatics, e.args.areaSlots.SamePayloads area cargs →
            linked.layout.staticSlots.SamePayloads m.statics cstatics →
            ∃ (value : Option Int32) (result : CResult) (bound : Nat),
              (∀ fuel, bound ≤ fuel → u.run fuel index cargs cstatics = .ok result) ∧
              outcome.ret = value.map .i4 ∧ result.value = value.map .int ∧
              e.args.areaSlots.SamePayloads outcome.args result.args ∧
              linked.layout.staticSlots.SamePayloads m'.statics result.statics := by
  obtain ⟨image, himage, hread⟩ := Image.exists_of_build hbuild
  obtain ⟨r₀, hentry, hlink⟩ := BuildContext.compileAndLink_ok hcompile
  obtain ⟨u, hunit, hfunctions⟩ := Build.exists_cUnit hbuild hemit
  have hall := core_of_isInt32 hcore
  refine ⟨image.loaded, u, hread, hunit, fun m m' index values outcome hloaded hbuiltins hstatics hrun => ?_⟩
  obtain ⟨t, hlayout, hslots⟩ := runsSlots_of_image hcompile himage
    (fieldsApart_of_core hentry hlink hall) hloaded hbuiltins
  have hruns := runsIntegers_of_link hentry hlink hall hsmall hlayout hslots hfunctions
  rw [hlayout] at hstatics ⊢
  obtain ⟨v, g, plan, state, area, hv, hfill, hagrees⟩ := hruns.finishes hstatics hrun
  refine ⟨v.entry, v.method, area, hv.entry, hloaded ▸ hv.loaded, hfill,
    fun cargs cstatics hargs hregion => ?_⟩
  obtain ⟨value, result, hret, ⟨bound, hfinishes⟩, hmatches⟩ := hagrees cargs cstatics hargs hregion
  refine ⟨value, result, bound, fun fuel hfuel => ?_, hret, hmatches.sameValue, hmatches.sameArgs,
    hmatches.sameStatics⟩
  unfold CUnit.run
  rw [hv.function]
  exact hfinishes fuel hfuel

/-- A program of the core: a loop around two calls, one with a switch and a result, and one that adds to
a static field. -/
def tally : BuildContext where
  program := {
    types := #[{ name := "Tally", methods := [⟨0⟩, ⟨1⟩, ⟨2⟩]
                 fields := [{ name := "sum", type := .primitive .i32, isStatic := true }] }]
    methods := #[
      { name := "Main", declaring := ⟨0⟩, params := [.primitive .i32], ret := .primitive .i32
        isStatic := true
        body := some { code := #[{ op := .slot .arguments .load 0 }, { op := .jumpIf false 10 },
          { op := .slot .arguments .load 0 },
          { op := .call false ⟨.named ⟨0⟩ [], "Weigh", [.primitive .i32], .primitive .i32, false⟩ },
          { op := .call false ⟨.named ⟨0⟩ [], "Add", [.primitive .i32], .void, false⟩ },
          { op := .slot .arguments .load 0 }, { op := .const (.i4 1) }, { op := .binary .sub },
          { op := .slot .arguments .store 0 }, { op := .jump 0 },
          { op := .field true .load ⟨.named ⟨0⟩ [], "sum"⟩ }, { op := .ret }] } },
      { name := "Weigh", declaring := ⟨0⟩, params := [.primitive .i32], ret := .primitive .i32
        isStatic := true
        body := some {
          locals := [.primitive .i32]
          code := #[{ op := .slot .arguments .load 0 }, { op := .const (.i4 3) }, { op := .binary .and },
            { op := .switch [6, 8] }, { op := .const (.i4 (-7)) }, { op := .ret },
            { op := .const (.i4 3) }, { op := .ret }, { op := .slot .arguments .load 0 }, { op := .dup },
            { op := .binary .mul }, { op := .slot .locals .store 0 }, { op := .slot .locals .load 0 },
            { op := .ret }] } },
      { name := "Add", declaring := ⟨0⟩, params := [.primitive .i32], isStatic := true
        body := some { code := #[{ op := .field true .load ⟨.named ⟨0⟩ [], "sum"⟩ },
          { op := .slot .arguments .load 0 }, { op := .binary .add },
          { op := .field true .store ⟨.named ⟨0⟩ [], "sum"⟩ }, { op := .ret }] } }] }

def tallyEntry : MethodRef := ⟨.named ⟨0⟩ [], "Main", [.primitive .i32], .primitive .i32, false⟩

def tallyRegistry : Registry := stateAfter (tally.compileAndLink tallyEntry) {}

theorem tally_run_eq_cUnit :
    ∃ entry linked b image u outcome m',
      tally.compileAndLink tallyEntry {} = .ok (entry, linked) tallyRegistry ∧
      Build.ofLinked tally tallyRegistry linked entry = .ok b ∧ tally.options.emitC = true ∧
      tallyRegistry.isInt32 tally = true ∧ linked.layout.staticSize < 65535 ∧
      LoadedImage.read b.bytes.toArray = .ok image ∧ b.cUnit = some u ∧
      (ofImage image tally.builtins {}).run entry [.i4 5] = (.ok outcome, m') ∧
      ∃ area result bound,
        (∀ fuel, bound ≤ fuel →
          u.run fuel entry area (SlotArea.ofStatics image.statics) = .ok result) ∧
        result.value = some (.int 15) ∧
        linked.layout.staticSlots.SamePayloads m'.statics result.statics := by
  obtain ⟨entry, linked, b, hcompile, hbuild, h⟩ := @Build.exists_of_any tally tallyEntry
    (fun built b => decide (built.2.layout.staticSize < 65535) &&
      (LoadedImage.read b.bytes.toArray).toOption.any fun image =>
        ((ofImage image tally.builtins {}).run built.1 [.i4 5]).1.toOption.any
          (·.ret == some (.i4 15))) (by decide +kernel)
  have hcore : tallyRegistry.isInt32 tally = true := by decide +kernel
  obtain ⟨hsmall, h⟩ := Bool.and_eq_true_iff.1 h
  obtain ⟨image, hread, h⟩ := except_any_toOption.1 h
  obtain ⟨outcome, hrun, hret⟩ := except_any_toOption.1 h
  obtain ⟨image', u, hread', hunit, hagrees⟩ :=
    run_eq_cUnit hcompile hbuild rfl hcore (of_decide_eq_true hsmall)
  cases hread.symm.trans hread'
  -- a new machine has the declared static region
  obtain ⟨r₀, hentry, hlink⟩ := BuildContext.compileAndLink_ok hcompile
  obtain ⟨written, himage, hloaded⟩ := Image.exists_of_build hbuild
  cases hread.symm.trans hloaded
  obtain ⟨t, hlayout, -, hintact⟩ := ofImage_fits hcompile himage
    (fieldsApart_of_core hentry hlink (core_of_isInt32 hcore)) {}
  obtain ⟨e, method, area, -, -, -, hsame⟩ := hagrees _ _ entry [.i4 5] outcome rfl rfl
    (hlayout ▸ hintact) (Prod.ext hrun rfl)
  obtain ⟨value, result, bound, hruns, hvalue, hresult, -, hregion⟩ :=
    hsame area _ (AreaSlots.SamePayloads.refl _ _) (AreaSlots.SamePayloads.refl _ _)
  refine ⟨entry, linked, b, _, u, outcome, _, hcompile, hbuild, rfl, hcore, of_decide_eq_true hsmall, hread,
    hunit, Prod.ext hrun rfl, area, result, bound, hruns, ?_, hregion⟩
  rw [hvalue] at hret
  cases value with
  | none => cases hret
  | some x =>
    have hx : x = 15 := by simpa using hret
    rw [hresult, hx]
    rfl

end Machine

end DeviceCode
