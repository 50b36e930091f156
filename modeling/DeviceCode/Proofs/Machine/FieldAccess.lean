import DeviceCode.Proofs.HostSurface
import DeviceCode.Proofs.Machine.Profile

/-!
# Field accesses in the machine

An access to a field of an object names a field that is found by its name, and what is found may be a
static field, or one that is shared with the host; both lie in the static region. The machine runs an
access only if the field lies there, and then it knows nothing of an object: the operand that the
operation declares for it stays on the stack. Main statement: `access_keeps_object`, with
`store_returns_object` as the case of a program whose result it spoils.
-/

namespace DeviceCode

open LoadedImage

variable {isStatic inStaticRegion : Bool} {access : Access} {slot : UInt16} {ref : FieldRef}

/-! ## What an access is lowered to -/

namespace Registry

variable {c : BuildContext} {start : MethodRef} {index : Nat} {r r' : Registry} {linked : Linked}

/-- The field that an instruction of a linked build names is found, and it is the site of the
instruction. -/
theorem site_of_field (hentry : compileEntry c start {} = .ok index r)
    (hlink : link c r = .ok linked r') {i j : Nat} {m : CompiledMethod}
    (hm : r'.methods[i]? = some m) (hop : m.op? c.program j = some (.field isStatic access ref)) :
    ∃ f, c.program.resolveField { ref with owner := ref.owner.substitute m.typeArgs } = .ok f ∧
      ∃ tag, m.sites[j]? = some (.field (f.use c.program isStatic).key
        (f.use c.program isStatic).inStaticRegion (f.use c.program isStatic).host tag) := by
  obtain ⟨r₁, hbind, -⟩ := methods_of_link hentry hlink
  have hsurveyed := (surveyed_of_link hentry hbind hlink).1 hm
  obtain ⟨f, hf⟩ := hsurveyed.resolves hop
  obtain ⟨_, htag, storage, -, rfl⟩ := hsurveyed.site hf
  obtain ⟨op, hop', huse⟩ := hf
  rw [hop] at hop'
  cases hop'
  obtain ⟨_, _, _, resolved, hsame, hresolved, rfl⟩ := Op.fieldUse?_some huse
  cases hsame
  exact ⟨resolved, hresolved, storage.tag, htag⟩

end Registry

namespace Machine

/-- What the machine decodes for an access: a slot of the static region, or nothing that it runs. -/
def accessOp : Access → (inStaticRegion : Bool) → (slot : Nat) → MachineOp
  | .load, true, slot => .loadStatic slot
  | .store, true, slot => .storeStatic slot
  | access, _, _ => .unsupported (Lowering.fieldOpcode access).name

section
variable {m : Machine} {c : BuildContext} {r : Registry} {t : TypeTables} {index : Nat}
  {v : MethodView} (h : m.MethodAt c r t index v) {i offset : Nat} {instruction : Instruction}
  {o : LoweredOp} (hat : v.OperationAt i offset instruction o)
include h hat

theorem MethodAt.decode?_access (hop : instruction.op = .field isStatic access ref)
    {key : String} {host : Bool} {tag : Tag} (hsite : o.site = .field key inStaticRegion host tag) :
    ∃ slot, t.layout.fieldOffset? key = some slot ∧ ∃ next,
      MachineOp.decode? v.method.code offset =
        some (accessOp access inStaticRegion slot.toNat, next) ∧
      (accessOp access inStaticRegion slot.toNat = .unsupported (Lowering.fieldOpcode access).name ∨
        next = offset + 6) := by
  have hlowers := hat.lowers
  have hholds := h.installed.holds h.record.code hat.op hat.offset
  have hlinks := h.installed.links i o hat.op
  rw [hop] at hlowers
  cases hlowers with
  | plain hplain => cases hplain
  | field _ _ _ key' inStaticRegion' host' tag' id wide region hid =>
    cases hsite
    have hslot := hlinks (2, .fieldOffset key) (by simp [Piece.links, Piece.size])
    refine ⟨v.value i 2 (.fieldOffset key), hslot, ?_⟩
    have hflags : Lowering.fieldFlags inStaticRegion host &&& Opcode.fieldStatic = 0 ↔
        inStaticRegion = false := by
      cases inStaticRegion <;> cases host <;> decide
    cases access with
    | load | store =>
      refine ⟨offset + 6, (MachineOp.decode?_field hid (fun _ => rfl) hholds).trans ?_, .inr rfl⟩
      cases inStaticRegion <;> simp [hflags, accessOp, Lowering.fieldOpcode]
    | address =>
      refine ⟨offset + 1, ?_, .inl rfl⟩
      rw [MachineOp.decode?_of_holds (MachineOp.holds_written_cons hholds).1]
      rfl

end

/-! ## What the machine does -/

/-- An access to a slot of the static region: what is loaded comes on top of the operands, and what is
stored is taken from there. No other operand is touched. -/
inductive AccessesSlot (method : LoadedMethod) (slot : UInt16) (s : MachineState) :
    Access → MachineState → Prop
  | load {v : Value} (loaded : s.statics.load slot.toNat = some v)
    (room : s.frame.stack.size < method.maxStack.toNat) :
    AccessesSlot method slot s .load
      { s with frame := { s.frame with pc := s.frame.pc + 6, stack := s.frame.stack.push v } }
  | store {v : Value} {statics : SlotArea} (top : s.frame.stack.back? = some v)
    (stored : s.statics.store slot.toNat v = some statics) :
    AccessesSlot method slot s .store
      { s with frame := { s.frame with pc := s.frame.pc + 6, stack := s.frame.stack.pop }, statics }

/-- Against what the operation declares, the access of the form for objects leaves one operand more. -/
theorem AccessesSlot.size {method : LoadedMethod} {s s' : MachineState}
    (h : AccessesSlot method slot s access s') (isStatic : Bool) (ref : FieldRef) (retPops : Nat)
    (htakes : ((Op.field isStatic access ref).effect retPops).1 ≤ s.frame.stack.size) :
    s'.frame.stack.size = s.frame.stack.size - ((Op.field isStatic access ref).effect retPops).1 +
      ((Op.field isStatic access ref).effect retPops).2 + (!isStatic).toNat := by
  cases h with
  | load loaded room =>
    cases isStatic with
    | false =>
      simp only [Op.effect, Array.size_push, Bool.not_false, Bool.toNat_true] at htakes ⊢
      omega
    | true => simp [Op.effect]
  | store top stored =>
    cases isStatic with
    | false =>
      simp only [Op.effect, Array.size_pop, Bool.not_false, Bool.toNat_true] at htakes ⊢
      omega
    | true => simp [Op.effect]

section
variable {m : Machine} {s : MachineState} {method : LoadedMethod}
  (hmethod : m.image.methods[s.frame.method]? = some method) {next : Nat}
include hmethod

theorem step_of_unsupported {name : String}
    (hdecode : MachineOp.decode? method.code s.frame.pc = some (.unsupported name, next)) :
    m.step s = .failed (.unsupported name ⟨s.frame.method, s.frame.pc⟩) s.statics := by
  unfold step
  simp only [hmethod, hdecode]
  rfl

theorem step_loadStatic (hdecode : MachineOp.decode? method.code s.frame.pc =
      some (.loadStatic slot.toNat, s.frame.pc + 6))
    (s' : MachineState) : m.step s = .running s' ↔ AccessesSlot method slot s .load s' := by
  unfold step
  simp only [hmethod, hdecode, perform, Frame.push]
  cases hload : s.statics.load slot.toNat with
  | none =>
    refine iff_of_false (by intro h; cases h) fun h => ?_
    cases h with
    | load loaded room => simp [hload] at loaded
  | some v =>
    by_cases hroom : method.maxStack.toNat ≤ s.frame.stack.size
    · simp only [if_pos hroom]
      refine iff_of_false (by intro h; cases h) fun h => ?_
      cases h with
      | load loaded room => omega
    · simp only [if_neg hroom]
      refine ⟨fun h => ?_, fun h => ?_⟩
      · cases h
        exact .load hload (by omega)
      · cases h with
        | load loaded room =>
          obtain rfl := Option.some.inj (hload.symm.trans loaded)
          rfl

theorem step_storeStatic (hdecode : MachineOp.decode? method.code s.frame.pc =
      some (.storeStatic slot.toNat, s.frame.pc + 6))
    (s' : MachineState) : m.step s = .running s' ↔ AccessesSlot method slot s .store s' := by
  unfold step
  simp only [hmethod, hdecode, perform, Frame.pop]
  cases htop : s.frame.stack.back? with
  | none =>
    refine iff_of_false (by intro h; cases h) fun h => ?_
    cases h with
    | store top stored => simp [htop] at top
  | some v =>
    cases hstore : s.statics.store slot.toNat v with
    | none =>
      refine ⟨fun h => ?_, fun h => ?_⟩
      · simp [bind, Except.bind, hstore, throw, throwThe, MonadExceptOf.throw] at h
      · cases h with
        | store top stored =>
          obtain rfl := Option.some.inj (htop.symm.trans top)
          simp [hstore] at stored
    | some statics =>
      refine ⟨fun h => ?_, fun h => ?_⟩
      · simp [bind, Except.bind, hstore, pure, Except.pure] at h
        exact h ▸ .store htop hstore
      · cases h with
        | store top stored =>
          obtain rfl := Option.some.inj (htop.symm.trans top)
          obtain rfl := Option.some.inj (hstore.symm.trans stored)
          simp [bind, Except.bind, hstore, pure, Except.pure]

/-- **A step on a decoded access.** -/
theorem step_access (hdecode : MachineOp.decode? method.code s.frame.pc =
      some (accessOp access inStaticRegion slot.toNat, next))
    (hnext : accessOp access inStaticRegion slot.toNat =
      .unsupported (Lowering.fieldOpcode access).name ∨ next = s.frame.pc + 6) (s' : MachineState) :
    m.step s = .running s' ↔ inStaticRegion = true ∧ AccessesSlot method slot s access s' := by
  cases inStaticRegion with
  | false =>
    have hrefused : accessOp access false slot.toNat =
        .unsupported (Lowering.fieldOpcode access).name := by cases access <;> rfl
    rw [hrefused] at hdecode
    simp [step_of_unsupported hmethod hdecode]
  | true =>
    simp only [true_and]
    cases access with
    | load =>
      obtain rfl : next = s.frame.pc + 6 := by simpa [accessOp] using hnext
      exact step_loadStatic hmethod hdecode s'
    | store =>
      obtain rfl : next = s.frame.pc + 6 := by simpa [accessOp] using hnext
      exact step_storeStatic hmethod hdecode s'
    | address =>
      rw [step_of_unsupported hmethod hdecode]
      refine iff_of_false (by intro h; cases h) fun h => ?_
      cases h

end

/-- Accesses to fields keep the object: an instruction that accesses a field runs exactly if the field
lies in the static region, being static or shared with the host, and the machine can read or write its
slot. It touches no operand but the value, whatever lies below. So the form for static fields does to
the stack what it declares, and the form for objects leaves one operand more. -/
def KeepsObjects (m : Machine) (c : BuildContext) (r : Registry) (linked : Linked) : Prop :=
  ∀ (i j : Nat) (e : CompiledMethod) (isStatic : Bool) (access : Access) (ref : FieldRef),
    r.methods[i]? = some e → e.op? c.program j = some (.field isStatic access ref) →
    ∃ f method offset slot,
      c.program.resolveField { ref with owner := ref.owner.substitute e.typeArgs } = .ok f ∧
      m.image.methods[i]? = some method ∧ e.offset? j = some offset ∧
      linked.layout.fieldOffset? (f.use c.program isStatic).key = some slot ∧
      ∀ s s' : MachineState, s.frame.method = i → s.frame.pc = offset →
        (m.step s = .running s' ↔
          (isStatic || f.field.isStatic || Lowering.isHostSurface c.program 65 f.declaringId) = true ∧
          AccessesSlot method slot s access s') ∧
        (m.step s = .running s' →
          (Registry.effectOf e j (.field isStatic access ref)).1 ≤ s.frame.stack.size →
          s'.frame.stack.size = (!isStatic).toNat +
            StackProfile.after (Registry.effectOf e) j (.field isStatic access ref)
              s.frame.stack.size)

/-- **Accesses to fields keep the object**, in every build. -/
theorem access_keeps_object {c : BuildContext} {start : MethodRef} {entry : Nat} {linked : Linked}
    {r : Registry} {b : Build} (hcompile : c.compileAndLink start {} = .ok (entry, linked) r)
    (hbuild : Build.ofLinked c r linked entry = .ok b) :
    ∃ image, LoadedImage.read b.bytes.toArray = .ok image ∧
      ∀ m : Machine, m.image = image → m.builtins = c.builtins → m.KeepsObjects c r linked := by
  obtain ⟨image, himage, hread⟩ := Image.exists_of_build hbuild
  refine ⟨image.loaded, hread, fun m hm hbuiltins i j e isStatic access ref he hop => ?_⟩
  obtain ⟨t, hlayout, -, hruns⟩ := runsBuild_of_image hcompile himage hm hbuiltins
  obtain ⟨r₀, hentry, hlink⟩ := BuildContext.compileAndLink_ok hcompile
  obtain ⟨f, hf, tag, hsite⟩ := Registry.site_of_field hentry hlink he hop
  obtain ⟨v, h⟩ := hruns.methodAt (Array.getElem?_eq_some_iff.1 he).1
  obtain rfl : e = v.entry := Option.some.inj (he.symm.trans h.entry)
  -- the operation at the index is the access
  rw [CompiledMethod.op?_eq h.installed.method h.installed.source] at hop
  obtain ⟨instruction, hinstruction, hop⟩ := Option.map_eq_some_iff.1 hop
  obtain ⟨offset, o, hat⟩ := h.operationAt hinstruction
  have hosite := Option.some.inj (hat.site.symm.trans hsite)
  obtain ⟨slot, hslot, next, hdecode, hnext⟩ := h.decode?_access hat hop hosite
  refine ⟨f, v.method, offset, slot, hf, h.loaded, hat.offset, hlayout ▸ hslot,
    fun s s' hframe hpc => ?_⟩
  subst hframe hpc
  have hstep := step_access h.loaded hdecode hnext s'
  refine ⟨hstep, fun hrun htakes => ?_⟩
  have hsize := (hstep.1 hrun).2.size isStatic ref _ htakes
  rw [StackProfile.after, Registry.effectOf]
  omega

/-- A program that stores into a shared field of an object, above a number that it returns. -/
def dial : BuildContext where
  program := {
    types := #[
      { name := "Panel", isHostSurface := true
        fields := [{ name := "speed", type := .primitive .i32 }] },
      { name := "P", methods := [⟨0⟩] }]
    methods := #[
      { name := "Main", declaring := ⟨1⟩, ret := .primitive .i32, isStatic := true
        body := some { code := #[{ op := .const (.i4 7) }, { op := .null }, { op := .const (.i4 5) },
          { op := .field false .store ⟨.named ⟨0⟩ [], "speed"⟩ }, { op := .ret }] } }] }

def dialEntry : MethodRef := ⟨.named ⟨1⟩ [], "Main", [], .primitive .i32, false⟩

def dialRegistry : Registry := stateAfter (dial.compileAndLink dialEntry) {}

theorem dial_keeps_object :
    ∃ entry linked b, dial.compileAndLink dialEntry {} = .ok (entry, linked) dialRegistry ∧
      Build.ofLinked dial dialRegistry linked entry = .ok b ∧
      ∃ image, LoadedImage.read b.bytes.toArray = .ok image ∧
        ∀ m : Machine, m.image = image → m.builtins = dial.builtins →
          m.KeepsObjects dial dialRegistry linked := by
  obtain ⟨entry, linked, b, hrun, hb, -⟩ :=
    @Build.exists_of_any dial dialEntry (fun _ _ => true) (by decide +kernel)
  exact ⟨entry, linked, b, hrun, hb, access_keeps_object hrun hb⟩

/-- The machine before the store of the program, with the number, an object and the value. -/
def beforeStore (m : Machine) : MachineState where
  frame := {
    method := 0
    pc := 13
    args := SlotArea.ofSlots []
    locals := SlotArea.ofSlots []
    stack := #[.i4 7, .null, .i4 5] }
  callers := []
  statics := m.statics

/-- The operands after a step. -/
def operandsAfter (m : Machine) (s : MachineState) : Option (Array Value) :=
  match m.step s with
  | .running s => some s.frame.stack
  | _ => none

/-- A store declares that it takes the object and the value, which leaves the number. It takes the value
only, and the program returns the object. -/
theorem store_returns_object :
    ∃ entry linked b image, dial.compileAndLink dialEntry {} = .ok (entry, linked) dialRegistry ∧
      Build.ofLinked dial dialRegistry linked entry = .ok b ∧
      LoadedImage.read b.bytes.toArray = .ok image ∧
      dialRegistry.methods[0]?.bind (·.offset? 3) = some 13 ∧
      dialRegistry.methods[0]?.bind (·.profile.depth? 4) = some 1 ∧
      operandsAfter (.ofImage image dial.builtins {}) (beforeStore (.ofImage image dial.builtins {})) =
        some #[.i4 7, .null] ∧
      ((Machine.ofImage image dial.builtins {}).runEntry []).1.toOption.map (·.ret) =
        some (some .null) := by
  obtain ⟨entry, linked, b, hrun, hb, h⟩ := @Build.exists_of_any dial dialEntry
    (fun _ b => (read b.bytes.toArray).toOption.any fun image =>
      decide (operandsAfter (.ofImage image dial.builtins {})
          (beforeStore (.ofImage image dial.builtins {})) = some #[.i4 7, .null] ∧
        ((Machine.ofImage image dial.builtins {}).runEntry []).1.toOption.map (·.ret) =
          some (some .null))) (by decide +kernel)
  have hoffset : dialRegistry.methods[0]?.bind (·.offset? 3) = some 13 := by decide +kernel
  have hdepth : dialRegistry.methods[0]?.bind (·.profile.depth? 4) = some 1 := by decide +kernel
  obtain ⟨image, hread, h⟩ := except_any_toOption.1 h
  exact ⟨entry, linked, b, image, hrun, hb, hread, hoffset, hdepth, of_decide_eq_true h⟩

end Machine

end DeviceCode
