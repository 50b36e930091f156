import DeviceCode.Proofs.Machine.Slots

/-!
# Slots over whole sessions

A machine is used again and again: methods are run, to their end or to an error, and values are written
to static slots between the runs. `Machine.Session` says which machines that leads to, and
`Machine.KeepsSlots` what holds of each. Main statement: `slots_intact`.
-/

namespace DeviceCode

variable {index entry : Nat} {s : MachineState} {values : List Value}
  {outcome : Except RunError Outcome} {m' : Machine} {layout : LayoutTable} {start : MethodRef}
  {m : Machine}

open RunError (IsNoSlot)

namespace Machine

/-! ## How runs end -/

/-- A run of the method on the values passes through the state. -/
def Visits (m : Machine) (index : Nat) (values : List Value) (s : MachineState) : Prop :=
  ∃ method args, m.image.methods[index]? = some method ∧
    fillArguments index method.args values = .ok args ∧ m.Reached index args s

/-- A run that has come to the state ends there. -/
inductive Stops (m : Machine) (s : MachineState) : Except RunError Outcome → SlotArea → Prop
  | limit : Stops m s (.error (.stepLimit m.limits.stepBound)) s.statics
  | returned {outcome : Outcome} {statics : SlotArea} (last : m.step s = .returned outcome statics) :
    Stops m s (.ok outcome) statics
  | failed {e : RunError} {statics : SlotArea} (last : m.step s = .failed e statics) :
    Stops m s (.error e) statics

/-- How a run of a method on some values ends. -/
inductive Ends (m : Machine) (index : Nat) (values : List Value) :
    Except RunError Outcome → Machine → Prop
  | unstarted {e : RunError} (ordinary : e.IsNoSlot) : Ends m index values (.error e) m
  | refused {method : LoadedMethod} {e : RunError} (known : m.image.methods[index]? = some method)
    (failed : fillArguments index method.args values = .error e) : Ends m index values (.error e) m
  | stopped {s : MachineState} {outcome : Except RunError Outcome} {statics : SlotArea}
    (visited : m.Visits index values s) (stops : m.Stops s outcome statics) :
    Ends m index values outcome { m with statics }

section
variable {m : Machine}

theorem Reached.stops {args : SlotArea} : ∀ {bound : Nat} {s : MachineState}, m.Reached index args s →
    ∃ s', m.Reached index args s' ∧
      m.Stops s' (m.execute bound (.running s)).1 (m.execute bound (.running s)).2
  | 0, s, h => ⟨s, h, .limit⟩
  | bound + 1, s, h => by
    show ∃ s', _ ∧ m.Stops s' (m.execute bound (m.step s)).1 (m.execute bound (m.step s)).2
    cases hstep : m.step s with
    | running s' => exact (Reached.step h hstep).stops
    | returned outcome statics =>
      unfold execute
      exact ⟨s, h, .returned hstep⟩
    | failed e statics =>
      unfold execute
      exact ⟨s, h, .failed hstep⟩

theorem run_ends (m : Machine) (index : Nat) (values : List Value) :
    m.Ends index values (m.run index values).1 (m.run index values).2 := by
  unfold run
  cases hmethod : m.image.methods[index]? with
  | none => exact .unstarted trivial
  | some method =>
    dsimp only
    split
    · exact .unstarted trivial
    · cases hfill : fillArguments index method.args values with
      | error e => exact .refused hmethod hfill
      | ok args =>
        dsimp only
        cases hinvoke : m.invoke index args [] m.statics with
        | running s =>
          obtain ⟨s', hs', hstops⟩ := (Reached.start hinvoke).stops
          exact .stopped ⟨method, args, hmethod, hfill, hs'⟩ hstops
        | returned outcome statics =>
          unfold invoke at hinvoke
          rw [hmethod] at hinvoke
          split at hinvoke <;> cases hinvoke
        | failed e statics =>
          unfold invoke at hinvoke
          rw [hmethod] at hinvoke
          split at hinvoke
          · cases hinvoke
            unfold execute
            exact .unstarted trivial
          · cases hinvoke

end

/-! ## Slots of the visited states -/

/-- All frames and the static region have the slots that were declared. -/
structure Intact (r : Registry) (layout : LayoutTable) (s : MachineState) : Prop where
  frame : ∃ e, r.methods[s.frame.method]? = some e ∧
    ∀ area, (e.areaSlots area).Intact (s.frame.area area)
  callers : ∀ caller ∈ s.callers, ∃ e, r.methods[caller.frame.method]? = some e ∧
    ∀ area, (e.areaSlots area).Intact (caller.frame.area area)
  statics : layout.staticSlots.Intact s.statics

section
variable {m : Machine} {c : BuildContext} {r : Registry} {t : TypeTables}

theorem FrameFits.intact {f : Frame} (h : m.FrameFits c r t f) :
    ∃ e, r.methods[f.method]? = some e ∧ ∀ area, (e.areaSlots area).Intact (f.area area) := by
  obtain ⟨v, hv, -, hintact⟩ := h
  exact ⟨v.entry, hv.entry, hintact⟩

theorem StateFits.intact (h : m.StateFits c r t index s) : Intact r t.layout s :=
  ⟨h.frame.intact, fun caller hcaller => (h.callers caller hcaller).intact, h.statics⟩

variable (hslots : m.RunsSlots c r t)
include hslots

theorem RunsSlots.methodAt_of_loaded {method : LoadedMethod}
    (h : m.image.methods[index]? = some method) :
    ∃ v, m.MethodAt c r t index v ∧ v.method = method := by
  have hlt := (Array.getElem?_eq_some_iff.1 h).1
  rw [hslots.toRunsBuild.size] at hlt
  obtain ⟨v, hv⟩ := hslots.toRunsBuild.methodAt hlt
  have hloaded := hv.loaded
  rw [h] at hloaded
  exact ⟨v, hv, (Option.some.inj hloaded).symm⟩

/-- The states of a run keep all slots, if it starts with the declared static region. -/
theorem Visits.fits (hstatics : t.layout.staticSlots.Intact m.statics)
    (h : m.Visits index values s) : m.StateFits c r t index s := by
  obtain ⟨method, args, hmethod, hargs, hreached⟩ := h
  obtain ⟨v, hv, rfl⟩ := hslots.methodAt_of_loaded hmethod
  have hfill := hv.fill_fits values
  rw [hargs] at hfill
  induction hreached with
  | start invoked =>
    unfold invoke at invoked
    rw [hmethod] at invoked
    split at invoked
    · cases invoked
    · cases invoked
      exact ⟨hv.enter_fits hfill, by simp, hstatics, rfl⟩
  | step reached next ih =>
    have hstep := step_fits hslots ih
    rw [next] at hstep
    exact hstep.1

end

/-! ## Sessions -/

/-- The machines that runs and writes to declared static slots lead to. -/
inductive Session (layout : LayoutTable) (start : Machine) : Machine → Prop
  | start : Session layout start start
  | run {m : Machine} (before : Session layout start m) (index : Nat) (values : List Value) :
    Session layout start (m.run index values).2
  | write {m m' : Machine} (before : Session layout start m) {place : SlotPlace}
    (declared : place ∈ layout.staticSlots.places) {v : Value}
    (written : m.writeStatic place.offset v = some m') : Session layout start m'

/-- **What holds of a machine that keeps its slots**: its static region and all states that its runs
visit have the declared slots, steps and writes change the payload of the slot that they name, and
only composite slots are refused. -/
structure KeepsSlots (r : Registry) (layout : LayoutTable) (m : Machine) : Prop where
  statics : layout.staticSlots.Intact m.statics
  visited : ∀ {index values s}, m.Visits index values s → Intact r layout s
  steps : ∀ {index values s s'}, m.Visits index values s → m.step s = .running s' →
    ∃ op, m.Decodes s op ∧ Changes r layout op s s'
  /-- The last step of a run writes nothing. -/
  stops : ∀ {index values s outcome statics}, m.Visits index values s → m.Stops s outcome statics →
    statics = s.statics
  returned : ∀ {index values outcome}, (m.run index values).1 = .ok outcome →
    ∃ e, r.methods[index]? = some e ∧ e.args.areaSlots.Intact outcome.args
  writes : ∀ {place v m'}, place ∈ layout.staticSlots.places →
    m.writeStatic place.offset v = some m' → place.Frames m.statics m'.statics
  refusedWrites : ∀ {place v}, place ∈ layout.staticSlots.places →
    m.writeStatic place.offset v = none → place.tag.isComposite = true
  /-- A run fails on a composite argument of its method, or where an instruction names a composite
  slot. -/
  refused : ∀ {index values k n}, (m.run index values).1 = .error (.badSlot k n) →
    (∃ e place, r.methods[index]? = some e ∧ place ∈ e.args.areaSlots.places ∧
      place.tag.isComposite = true ∧ k = index ∧ n = place.offset) ∨
    ∃ s op, m.Visits index values s ∧ m.Decodes s op ∧ Refuses r layout s op k n

section
variable {m : Machine} {c : BuildContext} {r : Registry} {t : TypeTables}
  (hslots : m.RunsSlots c r t) (hstatics : t.layout.staticSlots.Intact m.statics)
include hslots hstatics

theorem Visits.stops_fits (h : m.Visits index values s) {statics : SlotArea}
    (hstops : m.Stops s outcome statics) :
    statics = s.statics ∧
      (∀ o, outcome = .ok o → ∃ e, r.methods[index]? = some e ∧ e.args.areaSlots.Intact o.args) ∧
      ∀ k n, outcome = .error (.badSlot k n) →
        ∃ op, m.Decodes s op ∧ Refuses r t.layout s op k n := by
  have hfits := h.fits hslots hstatics
  have hstep := step_fits hslots hfits
  cases hstops with
  | limit => exact ⟨rfl, by simp, by simp⟩
  | returned last =>
    rw [last] at hstep
    obtain ⟨hcallers, hargs, heq⟩ := hstep
    refine ⟨heq, fun o ho => ?_, by simp⟩
    cases ho
    have hroot := hfits.root
    rw [hcallers] at hroot
    obtain ⟨e, he, hintact⟩ := hfits.frame.intact
    exact ⟨e, hroot ▸ he, hargs ▸ hintact .arguments⟩
  | failed last =>
    rw [last] at hstep
    obtain ⟨heq, hbad⟩ := hstep
    exact ⟨heq, by simp, fun k n hkn => hbad k n (Except.error.inj hkn)⟩

theorem Ends.statics (h : m.Ends index values outcome m') :
    t.layout.staticSlots.Intact m'.statics := by
  cases h with
  | unstarted _ | refused _ _ => exact hstatics
  | stopped visited stops =>
    rw [(visited.stops_fits hslots hstatics stops).1]
    exact (visited.fits hslots hstatics).statics

theorem Ends.returned {outcome : Outcome} (h : m.Ends index values (.ok outcome) m') :
    ∃ e, r.methods[index]? = some e ∧ e.args.areaSlots.Intact outcome.args := by
  cases h with
  | stopped visited stops => exact (visited.stops_fits hslots hstatics stops).2.1 outcome rfl

theorem Ends.refuses {k n : Nat} (h : m.Ends index values (.error (.badSlot k n)) m') :
    (∃ e place, r.methods[index]? = some e ∧ place ∈ e.args.areaSlots.places ∧
      place.tag.isComposite = true ∧ k = index ∧ n = place.offset) ∨
    ∃ s op, m.Visits index values s ∧ m.Decodes s op ∧ Refuses r t.layout s op k n := by
  cases h with
  | unstarted ordinary => exact ordinary.elim
  | refused known failed =>
    obtain ⟨v, hv, rfl⟩ := hslots.methodAt_of_loaded known
    have hfill := hv.fill_fits values
    rw [failed] at hfill
    obtain ⟨place, hplace, hcomposite, heq⟩ := hfill
    cases heq
    exact .inl ⟨v.entry, place, hv.entry, hplace, hcomposite, rfl, rfl⟩
  | @stopped s _ _ visited stops =>
    obtain ⟨op, hdecodes, hrefuses⟩ := (visited.stops_fits hslots hstatics stops).2.2 k n rfl
    exact .inr ⟨s, op, visited, hdecodes, hrefuses⟩

theorem keepsSlots : m.KeepsSlots r t.layout where
  statics := hstatics
  visited h := (h.fits hslots hstatics).intact
  steps h hnext := by
    have hstep := step_fits hslots (h.fits hslots hstatics)
    rw [hnext] at hstep
    exact hstep.2
  stops h hstops := (h.stops_fits hslots hstatics hstops).1
  returned {index values _} h := (h ▸ m.run_ends index values).returned hslots hstatics
  writes hplace hwrite := by
    obtain ⟨statics, hstore, rfl⟩ := Option.map_eq_some_iff.1 hwrite
    exact (hstatics.store hslots.tiled hplace hstore).1
  refusedWrites hplace hwrite :=
    (hstatics.store_none hslots.tiled hplace _).1 (Option.map_eq_none_iff.1 hwrite)
  refused {index values _ _} h := (h ▸ m.run_ends index values).refuses hslots hstatics

end

section
variable {start : Machine} {c : BuildContext} {r : Registry} {t : TypeTables}

theorem RunsSlots.of_same (h : m.RunsSlots c r t) (himage : m'.image = m.image)
    (hbuiltins : m'.builtins = m.builtins) : m'.RunsSlots c r t :=
  ⟨⟨hbuiltins.trans h.builtins, himage ▸ h.methods, h.installed⟩, h.tiled, h.served⟩

theorem Ends.same (h : m.Ends index values outcome m') :
    m'.image = m.image ∧ m'.builtins = m.builtins := by
  cases h <;> exact ⟨rfl, rfl⟩

theorem Session.same (h : Session layout start m) :
    m.image = start.image ∧ m.builtins = start.builtins := by
  induction h with
  | start => exact ⟨rfl, rfl⟩
  | @run m before index values ih =>
    have hsame := (m.run_ends index values).same
    exact ⟨hsame.1.trans ih.1, hsame.2.trans ih.2⟩
  | write before declared written ih =>
    obtain ⟨statics, -, rfl⟩ := Option.map_eq_some_iff.1 written
    exact ih

theorem Session.runsSlots (hslots : start.RunsSlots c r t)
    (hstatics : t.layout.staticSlots.Intact start.statics) (h : Session t.layout start m) :
    m.RunsSlots c r t ∧ t.layout.staticSlots.Intact m.statics := by
  induction h with
  | start => exact ⟨hslots, hstatics⟩
  | @run m before index values ih =>
    have hends := m.run_ends index values
    exact ⟨ih.1.of_same hends.same.1 hends.same.2, hends.statics ih.1 ih.2⟩
  | write before declared written ih =>
    obtain ⟨statics, hstore, rfl⟩ := Option.map_eq_some_iff.1 written
    exact ⟨ih.1.of_same rfl rfl, (ih.2.store ih.1.tiled declared hstore).2⟩

end

/-! ## The first machine -/

theorem statics_of_records {entries : List StaticRecord}
    (h : List.Forall₂ Image.IsStatic layout.statics.toList entries) :
    entries.map (fun e => (e.offset.toNat, e.tag)) =
      layout.staticSlots.places.map fun s => (s.offset, s.tag.id) := by
  have hentries : ∀ {fields : List StaticField} {entries : List StaticRecord},
      List.Forall₂ Image.IsStatic fields entries →
      entries.map (fun e => (e.offset.toNat, e.tag)) =
        fields.map fun f => (f.offset.toNat, f.tag.id) := by
    intro fields entries h
    induction h with
    | nil => rfl
    | cons hfield _ ih => rw [List.map_cons, List.map_cons, hfield.tag, hfield.offset, ih]
  rw [hentries h, LayoutTable.staticSlots, List.map_map]
  rfl

variable {c : BuildContext} {linked : Linked} {image : Image} {r : Registry}

theorem runsSlots_of_image (hcompile : c.compileAndLink start {} = .ok (entry, linked) r)
    (himage : Image.ofLinked c r linked index = .ok image) (hapart : r.fieldsApart = true)
    (hloaded : m.image = image.loaded) (hbuiltins : m.builtins = c.builtins) :
    ∃ t, linked.layout = t.layout ∧ m.RunsSlots c r t := by
  obtain ⟨r₀, hentry, hlink⟩ := BuildContext.compileAndLink_ok hcompile
  obtain ⟨fields, hserves, -⟩ := Registry.serves_of_link hentry hlink
  obtain ⟨t, hlayout, -, hruns⟩ := runsBuild_of_image hcompile himage hloaded hbuiltins
  refine ⟨t, hlayout, hruns, hlayout ▸ hserves.tiled, fun e he key host tag hsite => ?_⟩
  rw [← hlayout]
  exact Registry.static_of_site hentry hlink hapart he hsite

theorem ofImage_fits (hcompile : c.compileAndLink start {} = .ok (entry, linked) r)
    (himage : Image.ofLinked c r linked index = .ok image) (hapart : r.fieldsApart = true)
    (limits : ExecutionLimits) :
    ∃ t, linked.layout = t.layout ∧ (ofImage image.loaded c.builtins limits).RunsSlots c r t ∧
      t.layout.staticSlots.Intact (ofImage image.loaded c.builtins limits).statics := by
  obtain ⟨r₀, -, hlink⟩ := BuildContext.compileAndLink_ok hcompile
  have hback := Image.readBack_of_link hlink himage
  obtain ⟨t, hlayout, hslots⟩ := runsSlots_of_image (m := ofImage image.loaded c.builtins limits)
    hcompile himage hapart rfl rfl
  exact ⟨t, hlayout, hslots,
    AreaSlots.intact_ofStatics hslots.tiled (hlayout ▸ hback.staticSize)
      (hlayout ▸ statics_of_records hback.statics)⟩

/-- **Slot areas stay well formed.** The image of a build in which each field is accessed always in the
static region or never there can be read, and a machine with it keeps its slots, whatever was run and
written before. -/
theorem slots_intact {c : BuildContext} {start : MethodRef} {entry : Nat} {linked : Linked}
    {r : Registry} {b : Build} (hcompile : c.compileAndLink start {} = .ok (entry, linked) r)
    (hbuild : Build.ofLinked c r linked entry = .ok b) (hapart : r.fieldsApart = true) :
    ∃ image, LoadedImage.read b.bytes.toArray = .ok image ∧
      ∀ limits m, Session linked.layout (ofImage image c.builtins limits) m →
        m.KeepsSlots r linked.layout := by
  obtain ⟨image, himage, hread⟩ := Image.exists_of_build hbuild
  refine ⟨image.loaded, hread, fun limits m hm => ?_⟩
  obtain ⟨t, hlayout, hslots, hstatics⟩ := ofImage_fits hcompile himage hapart limits
  rw [hlayout] at hm ⊢
  obtain ⟨hslots, hstatics⟩ := hm.runsSlots hslots hstatics
  exact keepsSlots hslots hstatics

/-- A program with slots of several widths in all areas, one of them composite, which adds to its static
fields in a call and then fails on the composite slot. -/
def meter : BuildContext where
  program := {
    types := #[
      { name := "Meter", methods := [⟨0⟩, ⟨1⟩]
        fields := [{ name := "calls", type := .primitive .u8, isStatic := true },
          { name := "sum", type := .primitive .i32, isStatic := true }] },
      { name := "Point", kind := .structType, fields := [{ name := "x", type := .primitive .i32 }] }]
    methods := #[
      { name := "Main", declaring := ⟨0⟩, params := [.primitive .i16, .primitive .i32]
        ret := .primitive .i32, isStatic := true
        body := some {
          locals := [.primitive .u8, .named ⟨1⟩ [], .primitive .f32]
          code := #[{ op := .slot .arguments .load 1 },
            { op := .call false ⟨.named ⟨0⟩ [], "Add", [.primitive .i32], .void, false⟩ },
            { op := .field true .load ⟨.named ⟨0⟩ [], "sum"⟩ }, { op := .slot .locals .store 0 },
            { op := .slot .locals .load 1 }, { op := .pop }, { op := .slot .locals .load 0 },
            { op := .ret }] } },
      { name := "Add", declaring := ⟨0⟩, params := [.primitive .i32], isStatic := true
        body := some { code := #[{ op := .field true .load ⟨.named ⟨0⟩ [], "sum"⟩ },
          { op := .slot .arguments .load 0 }, { op := .binary .add },
          { op := .field true .store ⟨.named ⟨0⟩ [], "sum"⟩ },
          { op := .field true .load ⟨.named ⟨0⟩ [], "calls"⟩ }, { op := .const (.i4 1) },
          { op := .binary .add }, { op := .field true .store ⟨.named ⟨0⟩ [], "calls"⟩ },
          { op := .ret }] } }] }

def meterEntry : MethodRef :=
  ⟨.named ⟨0⟩ [], "Main", [.primitive .i16, .primitive .i32], .primitive .i32, false⟩

def meterRegistry : Registry := stateAfter (meter.compileAndLink meterEntry) {}

theorem meter_slots_intact :
    ∃ entry linked b,
      meter.compileAndLink meterEntry {} = .ok (entry, linked) meterRegistry ∧
      Build.ofLinked meter meterRegistry linked entry = .ok b ∧
      meterRegistry.fieldsApart = true ∧
      ∃ image, LoadedImage.read b.bytes.toArray = .ok image ∧
        ∀ limits m, Session linked.layout (ofImage image meter.builtins limits) m →
          m.KeepsSlots meterRegistry linked.layout := by
  have hapart : meterRegistry.fieldsApart = true := by decide +kernel
  obtain ⟨entry, linked, b, hrun, hb, -⟩ :=
    @Build.exists_of_any meter meterEntry (fun _ _ => true) (by decide +kernel)
  exact ⟨entry, linked, b, hrun, hb, hapart, slots_intact hrun hb hapart⟩

end Machine

end DeviceCode
