import DeviceCode.Proofs.Machine.Profile
import DeviceCode.Proofs.Machine.SlotArea

/-!
# The machine keeps its slots

The code of a build names only slots that were declared, and control stays on its instructions
(`MethodAt.sensible`), whatever the operand stacks hold. Areas of bytes that have the declared tags are
therefore written only in payloads. Main statement: `step_fits`, what one step does to the areas of all
frames and to the static region.
-/

namespace DeviceCode

open MachineOp

open List

variable {e : CompiledMethod} {r : Registry} {layout : LayoutTable} {mop : MachineOp}
  {callee : MethodRef} {next : Nat} {records : List SlotRecord} {key : String} {area : Area}
  {host : Bool} {l : Lowering} {v : MethodView} {index : Nat} {t : TypeTables} {n : UInt16}

/-! ## What instructions name -/

/-- The slots that a method declares. -/
def CompiledMethod.areaSlots (m : CompiledMethod) : Area → AreaSlots
  | .arguments => m.args.areaSlots
  | .locals => m.locals.areaSlots

theorem Lowering.slot_ok {s : Slot}
    (h : l.slot area n = .ok s) : area = .arguments ∧ l.args.get? n = some s ∨
      area = .locals ∧ l.locals.get? n = some s := by
  unfold Lowering.slot at h
  cases area <;> (dsimp only at h; split at h <;> cases h)
  · exact .inl ⟨rfl, by assumption⟩
  · exact .inr ⟨rfl, by assumption⟩

theorem Lowering.mem_areaSlots (hargs : l.args = e.args) (hlocals : l.locals = e.locals) {s : Slot}
    (h : l.slot area n = .ok s) :
    ∃ place ∈ (e.areaSlots area).places, place.offset = s.offset.toNat := by
  have mem : ∀ {slots : SlotList}, slots.get? n = some s →
      ∃ place ∈ slots.areaSlots.places, place.offset = s.offset.toNat := by
    intro slots hs
    exact ⟨⟨s.offset.toNat, s.tag⟩, mem_map.2 ⟨s, Array.mem_toList_iff.2
      (Array.mem_of_getElem? hs), rfl⟩, rfl⟩
  obtain ⟨rfl, hs⟩ | ⟨rfl, hs⟩ := slot_ok h
  · exact mem (hargs ▸ hs)
  · exact mem (hlocals ▸ hs)

open RunError (IsNoSlot)

namespace Machine

/-- What an instruction of a method names is declared. -/
def Names (r : Registry) (layout : LayoutTable) (e : CompiledMethod) : MachineOp → Prop
  | .load area slot | .store area slot => ∃ place ∈ (e.areaSlots area).places, place.offset = slot
  | .loadStatic slot | .storeStatic slot => ∃ place ∈ layout.staticSlots.places, place.offset = slot
  | .call callee => callee < r.methods.size
  | _ => True

/-- The machine runs a build whose static region has a slot for whatever is accessed there. -/
structure RunsSlots (m : Machine) (c : BuildContext) (r : Registry) (t : TypeTables) : Prop
    extends RunsBuild m c r t where
  tiled : t.layout.staticSlots.Tiled
  served : ∀ e ∈ r.methods, ∀ key host tag, .field key true host tag ∈ e.sites →
    ∃ s ∈ t.layout.statics, s.key = key

/-- The position is that of some instruction, or the end of the code. -/
def StandsIn (v : MethodView) (pc : Nat) : Prop := Stands v (fun _ => True) pc

/-- What an instruction names is declared, and it goes on to other instructions. -/
def Sensible (r : Registry) (t : TypeTables) (v : MethodView) (op : MachineOp) (next : Nat) : Prop :=
  Names r t.layout v.entry op ∧ (∀ pc ∈ exits v.method.code next op, StandsIn v pc) ∧
    ∀ k, op = .call k → StandsIn v next

theorem names_of_plain {branchWord : Nat → UInt16} {op : Op}
    (h : MachineOp.ofPlain? branchWord op = some mop) :
    Names r layout e mop ∧ ∀ k, mop ≠ .call k := by
  cases op <;> cases h <;> exact ⟨trivial, by simp⟩

theorem sensible_lead {i offset : Nat} {instruction : Instruction}
    {o : LoweredOp} (hat : v.OperationAt i offset instruction o)
    (hop : instruction.op = .call true callee)
    (hlead : MachineOp.byteAt? v.method.code offset = some Opcode.callvirtDirect.byte)
    (hdecode : MachineOp.decode? v.method.code offset = some (mop, next)) :
    Sensible r t v mop next := by
  rw [decode?_of_byteAt? hlead] at hdecode
  cases hdecode
  refine ⟨trivial, fun pc hpc => ?_, by simp⟩
  have hpc : pc = offset + 1 := by simpa [exits] using hpc
  exact .inr ⟨i, offset, instruction, o, hat, trivial, .inr ⟨hpc, hlead, callee, hop⟩⟩

section
variable {m : Machine} {c : BuildContext} {t : TypeTables} {index : Nat} {v : MethodView}
  (h : m.MethodAt c r t index v)
include h

theorem MethodAt.tiled (area : Area) : (v.entry.areaSlots area).Tiled := by
  obtain ⟨hargs, hlocals⟩ := h.installed.frame.tiled
  cases area with
  | arguments => exact hargs
  | locals => exact hlocals

section
variable {i offset : Nat} {instruction : Instruction} {o : LoweredOp}
  (hat : v.OperationAt i offset instruction o)
include hat

theorem MethodAt.sensible_behind_lead (hop : instruction.op = .call true callee)
    (hlead : MachineOp.byteAt? v.method.code offset = some Opcode.callvirtDirect.byte)
    (hdecode : MachineOp.decode? v.method.code (offset + 1) = some (mop, next)) :
    Sensible r t v mop next := by
  have hdecoded := h.decoded hat
  have hall : ∀ j ∈ instruction.op.successors i v.body.code.size, True := fun _ _ => trivial
  have hnext : StandsIn v (offset + Piece.totalSize o.pieces) :=
    h.stands_next hat hall (by rw [hop]; rfl)
  rw [hop] at hdecoded
  generalize hs : o.site = site at hdecoded
  cases hdecoded with
  | plain simple decoded => cases simple
  | call lead decoded =>
    cases hdecode.symm.trans decoded
    exact ⟨h.callee_lt hat hs, by simp [exits], fun _ _ => hnext⟩
  | callBuiltin lead decoded =>
    cases hdecode.symm.trans decoded
    exact ⟨trivial, by simpa [exits] using hnext, by simp⟩
  | refused decoded =>
    -- the machine takes the lead byte
    rw [decode?_of_byteAt? hlead] at decoded
    cases decoded

variable (hslots : m.RunsSlots c r t)
include hslots

/-- The static field that an instruction accesses has its slot where the operand says. -/
theorem MethodAt.static_located {tag : Tag} (hsite : o.site = .field key true host tag) : ∃ field,
      t.layout.staticField? key = some field ∧ field.offset = v.value i 2 (.fieldOffset key) := by
  have hresolves : t.layout.fieldOffset? key = some (v.value i 2 (.fieldOffset key)) :=
    h.installed.links i o hat.op _ (hat.lowers.offset_link hsite)
  obtain ⟨s, hs, hkey⟩ := hslots.served v.entry (Array.mem_of_getElem? h.entry) key host tag
    (hsite ▸ Array.mem_of_getElem? hat.site)
  cases hfield : t.layout.staticField? key with
  | none =>
    have hmissing := Array.find?_eq_none.1 hfield s hs
    simp [hkey] at hmissing
  | some field =>
    rw [LayoutTable.fieldOffset?, hfield] at hresolves
    exact ⟨field, rfl, Option.some.inj hresolves⟩

theorem MethodAt.named_static {tag : Tag} (hsite : o.site = .field key true host tag) :
    ∃ place ∈ t.layout.staticSlots.places,
      place.offset = (v.value i 2 (.fieldOffset key)).toNat := by
  obtain ⟨field, hfield, hoffset⟩ := h.static_located hat hslots hsite
  have hmem := Array.mem_toList_iff.2 (LayoutTable.staticField?_some hfield).1
  exact ⟨⟨field.offset.toNat, field.tag⟩, mem_map.2 ⟨field, hmem, rfl⟩, hoffset ▸ rfl⟩

theorem MethodAt.sensible_at_offset
    (hdecode : MachineOp.decode? v.method.code offset = some (mop, next)) :
    Sensible r t v mop next := by
  have hdecoded := h.decoded hat
  have hall : ∀ j ∈ instruction.op.successors i v.body.code.size, True := fun _ _ => trivial
  obtain ⟨op, line⟩ := instruction
  generalize hs : o.site = site at hdecoded
  cases hdecoded with
  | plain simple decoded =>
    cases hdecode.symm.trans decoded
    obtain ⟨hnames, hcall⟩ := names_of_plain simple
    exact ⟨hnames, h.exits_of_plain hat hall simple, fun k hk => absurd hk (hcall k)⟩
  | load slot decoded | store slot decoded =>
    cases hdecode.symm.trans decoded
    exact ⟨Lowering.mem_areaSlots h.installed.args h.installed.locals slot,
      h.exits_of_next hat hall (fun _ => rfl) rfl, by simp⟩
  | switch decoded table =>
    cases hdecode.symm.trans decoded
    exact ⟨trivial, h.exits_of_switch hat hall rfl table, by simp⟩
  | loadStatic decoded | storeStatic decoded =>
    cases hdecode.symm.trans decoded
    exact ⟨h.named_static hat hslots hs, h.exits_of_next hat hall (fun _ => rfl) rfl, by simp⟩
  | @call isVirtual callee k pops storage lead decoded =>
    cases isVirtual with
    | false =>
      cases hdecode.symm.trans decoded
      exact ⟨h.callee_lt hat hs, by simp [exits], fun _ _ => h.stands_next hat hall rfl⟩
    | true => exact sensible_lead hat rfl (lead rfl) hdecode
  | @callBuiltin isVirtual callee id pops storage lead decoded =>
    cases isVirtual with
    | false =>
      cases hdecode.symm.trans decoded
      exact ⟨trivial, h.exits_of_next hat hall (fun _ => rfl) rfl, by simp⟩
    | true => exact sensible_lead hat rfl (lead rfl) hdecode
  | refused decoded =>
    cases hdecode.symm.trans decoded
    exact ⟨trivial, by simp [exits], by simp⟩

end

/-- **What the machine decodes where a frame stands** names what is declared, and control goes on to
where frames stand. -/
theorem MethodAt.sensible (hslots : m.RunsSlots c r t) {pc : Nat} (hstands : StandsIn v pc)
    (hdecode : MachineOp.decode? v.method.code pc = some (mop, next)) :
    Sensible r t v mop next := by
  rcases hstands with rfl | ⟨i, offset, instruction, o, hat, -, rfl | ⟨rfl, hlead, callee, hop⟩⟩
  · simp [decode?, byteAt?] at hdecode
  · exact h.sensible_at_offset hat hslots hdecode
  · exact h.sensible_behind_lead hat hop hlead hdecode

end

/-! ## Areas of arguments -/

theorem tags_of_records {slots : SlotList}
    (h : List.Forall₂ (Image.IsSlot layout) slots.slots.toList records) :
    records.map (·.tag) = slots.areaSlots.places.map (·.tag.id) := by
  have htags : ∀ {slots : List Slot} {records : List SlotRecord},
      List.Forall₂ (Image.IsSlot layout) slots records →
      records.map (·.tag) = slots.map (·.tag.id) := by
    intro slots records h
    induction h with
    | nil => rfl
    | cons hslot _ ih => rw [map_cons, map_cons, hslot.tag, ih]
  rw [htags h, SlotList.areaSlots, map_map]
  rfl

theorem fillArguments_fits {a : AreaSlots} (htiled : a.Tiled)
    (hrecords : records.map (·.tag) = a.places.map (·.tag.id)) (index : Nat) (values : List Value) :
    Ensures (fun e => ∃ place ∈ a.places, place.tag.isComposite = true ∧
      e = .badSlot index place.offset) a.Intact (fillArguments index records values) := by
  unfold fillArguments
  rw [AreaSlots.slotOffsets_eq hrecords htiled]
  have hplaces : ∀ e ∈ (a.places.map (·.offset)).zip values, ∃ place ∈ a.places,
      place.offset = e.1 := by
    intro e he
    obtain ⟨place, hplace, heq⟩ := mem_map.1 (of_mem_zip he).1
    exact ⟨place, hplace, heq⟩
  have hstart := AreaSlots.intact_ofSlots hrecords htiled
  generalize SlotArea.ofSlots records = area at hstart
  generalize (a.places.map (·.offset)).zip values = pairs at hplaces
  induction pairs generalizing area with
  | nil => exact hstart
  | cons e rest ih =>
    obtain ⟨offset, v⟩ := e
    obtain ⟨place, hplace, rfl⟩ := hplaces _ mem_cons_self
    refine Ensures.bind (P := a.Intact) ?_ fun area' harea =>
      ih area' harea fun e he => hplaces e (mem_cons_of_mem _ he)
    dsimp only
    split
    · rename_i area' hstored
      exact (hstart.store htiled hplace hstored).2
    · rename_i hnone
      exact ⟨place, hplace, (hstart.store_none htiled hplace v).1 hnone, rfl⟩

/-! ## States -/

/-- The method that a run started with. -/
def rootOf : (method : Nat) → List Caller → Nat
  | method, [] => method
  | _, caller :: callers => rootOf caller.frame.method callers

section
variable (m : Machine) (c : BuildContext) (r : Registry) (t : TypeTables)

/-- The frame stands in its code, and its variables are as its method declares them. -/
def FrameFits (f : Frame) : Prop :=
  ∃ v, m.MethodAt c r t f.method v ∧ StandsIn v f.pc ∧
    ∀ area, (v.entry.areaSlots area).Intact (f.area area)

/-- All frames fit, and the static region is as it was declared. -/
structure StateFits (index : Nat) (s : MachineState) : Prop where
  frame : m.FrameFits c r t s.frame
  callers : ∀ caller ∈ s.callers, m.FrameFits c r t caller.frame
  statics : t.layout.staticSlots.Intact s.statics
  root : rootOf s.frame.method s.callers = index

end

/-- The machine decodes the instruction. -/
def Decodes (m : Machine) (s : MachineState) (op : MachineOp) : Prop :=
  ∃ method next, m.image.methods[s.frame.method]? = some method ∧
    MachineOp.decode? method.code s.frame.pc = some (op, next)

/-- How a step on an instruction changes the areas. Only a store does, and it changes the payload of the
declared slot that it names. -/
inductive Changes (r : Registry) (layout : LayoutTable) (op : MachineOp) (s s' : MachineState) : Prop
  | nothing (method : s'.frame.method = s.frame.method)
    (same : ∀ area, s'.frame.area area = s.frame.area area) (statics : s'.statics = s.statics)
    (callers : s'.callers = s.callers)
  | toVariable {e : CompiledMethod} {area : Area} {place : SlotPlace}
    (method : s'.frame.method = s.frame.method) (entry : r.methods[s.frame.method]? = some e)
    (declared : place ∈ (e.areaSlots area).places) (names : op = .store area place.offset)
    (written : place.Frames (s.frame.area area) (s'.frame.area area))
    (others : ∀ other, other ≠ area → s'.frame.area other = s.frame.area other)
    (statics : s'.statics = s.statics) (callers : s'.callers = s.callers)
  | toStatic {place : SlotPlace} (method : s'.frame.method = s.frame.method)
    (declared : place ∈ layout.staticSlots.places) (names : op = .storeStatic place.offset)
    (written : place.Frames s.statics s'.statics)
    (same : ∀ area, s'.frame.area area = s.frame.area area) (callers : s'.callers = s.callers)
  | enter {caller : Caller} (names : op = .call s'.frame.method)
    (callers : s'.callers = caller :: s.callers) (method : caller.frame.method = s.frame.method)
    (same : ∀ area, caller.frame.area area = s.frame.area area) (statics : s'.statics = s.statics)
  | leave {caller : Caller} (names : op = .ret) (callers : s.callers = caller :: s'.callers)
    (method : s'.frame.method = caller.frame.method)
    (same : ∀ area, s'.frame.area area = caller.frame.area area) (statics : s'.statics = s.statics)

/-- An instruction fails on a composite slot that it names, or that a method that it calls declares. -/
inductive Refuses (r : Registry) (layout : LayoutTable) (s : MachineState) (op : MachineOp) :
    (method slot : Nat) → Prop
  | ofVariable {e : CompiledMethod} {area : Area} {place : SlotPlace}
    (names : op = .load area place.offset ∨ op = .store area place.offset)
    (entry : r.methods[s.frame.method]? = some e) (declared : place ∈ (e.areaSlots area).places)
    (composite : place.tag.isComposite = true) :
    Refuses r layout s op s.frame.method place.offset
  | ofStatic {place : SlotPlace}
    (names : op = .loadStatic place.offset ∨ op = .storeStatic place.offset)
    (declared : place ∈ layout.staticSlots.places) (composite : place.tag.isComposite = true) :
    Refuses r layout s op s.frame.method place.offset
  | ofArgument {callee : Nat} {e : CompiledMethod} {place : SlotPlace} (names : op = .call callee)
    (entry : r.methods[callee]? = some e) (declared : place ∈ e.args.areaSlots.places)
    (composite : place.tag.isComposite = true) : Refuses r layout s op callee place.offset

/-- What a step that starts well leads to. -/
def StepFits (m : Machine) (c : BuildContext) (r : Registry) (t : TypeTables) (index : Nat)
    (s : MachineState) : Progress → Prop
  | .running s' => m.StateFits c r t index s' ∧ ∃ op, m.Decodes s op ∧ Changes r t.layout op s s'
  | .returned outcome statics => s.callers = [] ∧ outcome.args = s.frame.args ∧ statics = s.statics
  | .failed e statics => statics = s.statics ∧
      ∀ k n, e = .badSlot k n → ∃ op, m.Decodes s op ∧ Refuses r t.layout s op k n

section
variable {m : Machine} {c : BuildContext} {t : TypeTables}

theorem FrameFits.of_same {f f' : Frame} (h : m.FrameFits c r t f) (hsame : f.Same f') :
    m.FrameFits c r t f' := by
  obtain ⟨v, hv, hstands, hintact⟩ := h
  exact ⟨v, hsame.method ▸ hv, hsame.pc ▸ hstands, fun area => hsame.area area ▸ hintact area⟩

variable {args : SlotArea}

theorem MethodAt.enter_fits (h : m.MethodAt c r t index v) (hargs : v.entry.args.areaSlots.Intact args) :
    m.FrameFits c r t (Frame.enter index v.method args) := by
  refine ⟨v, h, h.stands_start fun _ => trivial, fun area => ?_⟩
  cases area with
  | arguments => exact hargs
  | locals => exact AreaSlots.intact_ofSlots (tags_of_records h.record.locals) (h.tiled .locals)

theorem MethodAt.fill_fits (h : m.MethodAt c r t index v) (values : List Value) :
    Ensures (fun e => ∃ place ∈ v.entry.args.areaSlots.places, place.tag.isComposite = true ∧
      e = .badSlot index place.offset) v.entry.args.areaSlots.Intact
      (fillArguments index v.method.args values) :=
  fillArguments_fits (h.tiled .arguments) (tags_of_records h.record.args) index values

variable (hslots : m.RunsSlots c r t) {index : Nat} {s : MachineState} {v : MethodView}
  (h : m.MethodAt c r t s.frame.method v)
  (hintact : ∀ area, (v.entry.areaSlots area).Intact (s.frame.area area))
  (hstatics : t.layout.staticSlots.Intact s.statics) (hnames : Names r t.layout v.entry mop)
include hslots h hintact hstatics hnames

theorem refuses_of_misses {k n : Nat}
    (hmisses : m.Misses ⟨s.frame.method, s.frame.pc⟩ { s.frame with pc := next } s.statics mop
      (.badSlot k n)) : Refuses r t.layout s mop k n := by
  cases hmisses with
  | @load area _ hnone =>
    obtain ⟨place, hplace, rfl⟩ := hnames
    exact .ofVariable (.inl rfl) h.entry hplace ((hintact area).load_none (h.tiled area) hplace |>.1 hnone)
  | @store area _ v' hnone =>
    obtain ⟨place, hplace, rfl⟩ := hnames
    exact .ofVariable (.inr rfl) h.entry hplace
      ((hintact area).store_none (h.tiled area) hplace v' |>.1 hnone)
  | loadStatic hnone =>
    obtain ⟨place, hplace, rfl⟩ := hnames
    exact .ofStatic (.inl rfl) hplace (hstatics.load_none hslots.tiled hplace |>.1 hnone)
  | @storeStatic _ v' hnone =>
    obtain ⟨place, hplace, rfl⟩ := hnames
    exact .ofStatic (.inr rfl) hplace (hstatics.store_none hslots.tiled hplace v' |>.1 hnone)
  | @call callee target values _ known failed =>
    obtain ⟨w, hw⟩ := hslots.toRunsBuild.methodAt hnames
    have hloaded := hw.loaded
    rw [known] at hloaded
    cases hloaded
    have hfill := hw.fill_fits values
    rw [failed] at hfill
    obtain ⟨place, hplace, hcomposite, heq⟩ := hfill
    cases heq
    exact .ofArgument rfl hw.entry hplace hcomposite
  | other ordinary => exact ordinary.elim

/-- An instruction that stays in its frame keeps all slots, and changes the payload of one at most. -/
theorem writes_fits {f : Frame} {statics : SlotArea} (hmethod : f.method = s.frame.method)
    (hwrites : Writes { s.frame with pc := next } s.statics mop f statics) :
    (∀ area, (v.entry.areaSlots area).Intact (f.area area)) ∧ t.layout.staticSlots.Intact statics ∧
      Changes r t.layout mop s { s with frame := f, statics } := by
  cases hwrites with
  | nothing same =>
    exact ⟨fun area => same area ▸ hintact area, hstatics, .nothing hmethod same rfl rfl⟩
  | @toVariable area _ value _ stored others =>
    obtain ⟨place, hplace, rfl⟩ := hnames
    obtain ⟨hframes, hkept⟩ := (hintact area).store (h.tiled area) hplace stored
    refine ⟨fun other => ?_, hstatics, .toVariable hmethod h.entry hplace rfl hframes others rfl rfl⟩
    by_cases heq : other = area
    · exact heq ▸ hkept
    · exact others other heq ▸ hintact other
  | toStatic stored same =>
    obtain ⟨place, hplace, rfl⟩ := hnames
    obtain ⟨hframes, hkept⟩ := hstatics.store hslots.tiled hplace stored
    exact ⟨fun area => same area ▸ hintact area, hkept,
      .toStatic hmethod hplace rfl hframes same rfl⟩

end

section
variable {m : Machine} {c : BuildContext} {t : TypeTables} {index : Nat} {s : MachineState}
  (hs : m.StateFits c r t index s) (hdecodes : m.Decodes s mop)
include hs hdecodes

theorem invoke_fits (hslots : m.RunsSlots c r t) {caller : Caller} {callee : Nat}
    {target : LoadedMethod} {values : List Value} (hop : mop = .call callee)
    (hlt : callee < r.methods.size) (hmethod : caller.frame.method = s.frame.method)
    (hsame : ∀ area, caller.frame.area area = s.frame.area area)
    (hcaller : m.FrameFits c r t caller.frame) (htarget : m.image.methods[callee]? = some target)
    (hargs : fillArguments callee target.args values = .ok args) :
    m.StepFits c r t index s (m.invoke callee args (caller :: s.callers) s.statics) := by
  unfold invoke
  split
  · exact ⟨rfl, by simp⟩
  · obtain ⟨w, hw⟩ := hslots.toRunsBuild.methodAt hlt
    have hloaded := hw.loaded
    rw [htarget] at hloaded
    cases hloaded
    have hfill := hw.fill_fits values
    rw [hargs] at hfill
    simp only [htarget]
    refine ⟨⟨hw.enter_fits hfill, ?_, hs.statics, ?_⟩, mop, hdecodes,
      .enter hop rfl hmethod hsame rfl⟩
    · intro waiting hwaiting
      rcases mem_cons.1 hwaiting with rfl | hrest
      · exact hcaller
      · exact hs.callers waiting hrest
    · show rootOf caller.frame.method s.callers = index
      rw [hmethod]
      exact hs.root

theorem returnTo_fits (hop : mop = .ret) (value : Option Value) :
    m.StepFits c r t index s (m.returnTo s.callers value s.frame.args s.statics) := by
  have resume : ∀ {caller : Caller} {rest : List Caller} {f : Frame}, s.callers = caller :: rest →
      caller.frame.Same f → m.StepFits c r t index s (.running ⟨f, rest, s.statics⟩) := by
    intro caller rest f hcallers hsame
    have hmem : ∀ {waiting : Caller}, waiting ∈ caller :: rest → waiting ∈ s.callers := by
      simp [hcallers]
    refine ⟨⟨(hs.callers caller (hmem mem_cons_self)).of_same hsame,
      fun waiting hwaiting => hs.callers waiting (hmem (mem_cons_of_mem _ hwaiting)), hs.statics, ?_⟩,
      mop, hdecodes, .leave hop hcallers hsame.method hsame.area rfl⟩
    have hroot := hs.root
    rw [hcallers] at hroot
    rw [hsame.method]
    exact hroot
  cases hcallers : s.callers with
  | nil =>
    exact ⟨hcallers, rfl, rfl⟩
  | cons caller rest =>
    cases value with
    | none => exact resume hcallers caller.frame.same_refl
    | some v =>
      have hpush : ∀ {maxStack : UInt16} {x : Except RunError Frame},
          caller.frame.push maxStack ⟨caller.frame.method, caller.site⟩ v = x →
          Ensures IsNoSlot caller.frame.Same x := by
        rintro maxStack _ rfl
        exact (caller.frame.push_leaves _ maxStack v).imp (fun _ he => he.1 ▸ trivial) fun _ h => h.toSame
      unfold returnTo
      dsimp only
      split
      · rename_i e herror
        exact ⟨rfl, fun k n hkn => (hkn ▸ hpush herror : IsNoSlot (.badSlot k n)).elim⟩
      · rename_i f hf
        exact resume hcallers (hpush hf)

end

/-- **A step of the machine keeps all slots.** -/
theorem step_fits {m : Machine} {c : BuildContext} (hslots : m.RunsSlots c r t) {s : MachineState}
    (hs : m.StateFits c r t index s) :
    m.StepFits c r t index s (m.step s) := by
  obtain ⟨v, h, hstands, hintact⟩ := hs.frame
  unfold step
  cases hdecode : decode? v.method.code s.frame.pc with
  | none =>
    simp only [h.loaded, hdecode]
    exact ⟨rfl, by simp⟩
  | some e =>
    obtain ⟨mop, next⟩ := e
    obtain ⟨hnames, hexits, hcall⟩ := h.sensible hslots hstands hdecode
    have hdecodes : m.Decodes s mop := ⟨v.method, next, h.loaded, hdecode⟩
    have htouches : Ensures _ _ (m.perform v.method ⟨s.frame.method, s.frame.pc⟩
      { s.frame with pc := next } s.statics mop) := perform_touches
    simp only [h.loaded, hdecode]
    split
    · rename_i e herror
      rw [herror] at htouches
      refine ⟨rfl, fun k n hkn => ⟨mop, hdecodes, ?_⟩⟩
      exact refuses_of_misses hslots h hintact hs.statics hnames (hkn ▸ htouches)
    · rename_i f statics hnext
      rw [hnext] at htouches
      obtain ⟨hmethod, hpc, hwrites⟩ := htouches
      obtain ⟨hkept, hstatics, hchanges⟩ :=
        writes_fits hslots h hintact hs.statics hnames hmethod hwrites
      refine ⟨⟨⟨v, hmethod ▸ h, hexits _ hpc, hkept⟩, hs.callers, hstatics, ?_⟩, mop, hdecodes,
        hchanges⟩
      rw [hmethod]
      exact hs.root
    · rename_i value args hret
      rw [hret] at htouches
      obtain ⟨hop, rfl⟩ := htouches
      exact returnTo_fits hs hdecodes hop value
    · rename_i f callee args hcalled
      rw [hcalled] at htouches
      obtain ⟨rfl, hsame, target, values, htarget, hargs⟩ := htouches
      have hframe : m.FrameFits c r t { s.frame with pc := next } :=
        ⟨v, h, hcall callee rfl, fun area => by cases area <;> exact hintact _⟩
      exact invoke_fits hs hdecodes hslots rfl hnames hsame.method
        (fun area => (hsame.area area).trans (by cases area <;> rfl)) (hframe.of_same hsame) htarget
        hargs

end Machine

end DeviceCode
