import DeviceCode.Proofs.Machine.Session
import DeviceCode.Proofs.Machine.StackTyping

/-!
# What methods return

A return gives the uppermost operand as it is: nothing cuts it to the width of the result. So a method
may return what no slot of its result type keeps. It does not where the operands at its returns have the
right shapes, which a typing of the operand stacks shows. Main statement: `returns_operands`.
-/

namespace DeviceCode

open LoadedImage

namespace Machine

/-- The frame that runs returns the value, to the frame that waits for it or as the result of the
run. -/
def Returns (m : Machine) (s : MachineState) (value : Option Value) : Prop :=
  match m.step s with
  | .returned outcome _ => outcome.ret = value
  | .running s' => ∃ caller, s.callers = caller :: s'.callers ∧
      s'.frame.stack.toList = caller.frame.stack.toList ++ value.toList
  | .failed _ _ => False

section
variable {m : Machine} {s : MachineState} {value : Option Value}

theorem Returns.performed (h : m.Returns s value) :
    ∃ method op next args, m.Performed s method op next (.ret value args) := by
  have hcases := step_cases m s
  unfold Returns at h
  cases hprogress : m.step s with
  | failed e statics =>
    rw [hprogress] at h
    exact h.elim
  | returned outcome statics =>
    rw [hprogress] at h hcases
    exact h ▸ hcases.2
  | running s' =>
    rw [hprogress] at h
    obtain ⟨caller, hcallers, hstack⟩ := h
    have hmoves := moves_of_step hprogress
    have hlength := congrArg List.length hcallers
    cases hmoves with
    | within performed => exact absurd hcallers.symm (List.cons_ne_self caller s.callers)
    | enter performed known =>
      simp only [List.length_cons] at hlength
      omega
    | @leave method op next value' args caller' rest f performed waits same stack =>
      have heq : value' = value := by cases value <;> cases value' <;> simp_all
      exact ⟨method, op, next, args, heq ▸ performed⟩

variable {index : Nat} {values : List Value}

theorem Visits.root (h : m.Visits index values s) : rootOf s.frame.method s.callers = index := by
  obtain ⟨method, args, hmethod, -, hreached⟩ := h
  induction hreached with
  | start invoked =>
    unfold invoke at invoked
    rw [hmethod] at invoked
    split at invoked
    · cases invoked
    · cases invoked
      rfl
  | step reached next ih => exact (moves_of_step next).root.trans ih

theorem Ends.result {outcome : Outcome} {m' : Machine} (h : m.Ends index values (.ok outcome) m') :
    ∃ s, m.Visits index values s ∧ s.frame.method = index ∧ m.Returns s outcome.ret := by
  cases h with
  | @stopped s _ _ visited stops =>
    cases stops with
    | returned last =>
      have hcases := step_cases m s
      rw [last] at hcases
      have hroot := visited.root
      rw [hcases.1] at hroot
      refine ⟨s, visited, hroot, ?_⟩
      unfold Returns
      rw [last]

variable {c : BuildContext} {r : Registry} {t : TypeTables} (hslots : m.RunsSlots c r t)
  (hstatics : t.layout.staticSlots.Intact m.statics) {T : StackTyping}
  (hT : T.accepts m.image m.builtins r t.layout = true) (h : m.Visits index values s)
include hslots hstatics hT h

theorem Visits.types : T.StateTypes m.image s := by
  obtain ⟨method, args, hmethod, hargs, hreached⟩ := h
  induction hreached with
  | start invoked =>
    unfold invoke at invoked
    rw [hmethod] at invoked
    split at invoked
    · cases invoked
    · cases invoked
      exact ⟨.enter T index method args, trivial⟩
  | step reached next ih =>
    have hfits := Visits.fits hslots hstatics ⟨method, args, hmethod, hargs, reached⟩
    exact (moves_of_step next).types hslots hfits hT ih

theorem Visits.returns (hreturns : m.Returns s value) :
    T.Returns m.image s.frame.method value := by
  obtain ⟨v, hv, -, -⟩ := (h.fits hslots hstatics).frame
  obtain ⟨method, op, next, args, hperformed⟩ := hreturns.performed
  obtain rfl : v.method = method := Option.some.inj (hv.loaded.symm.trans hperformed.loaded)
  exact returns_typed hT (h.types hslots hstatics hT) hv hperformed

end

/-- **What holds of the values that methods return.** -/
structure ReturnsOperands (r : Registry) (layout : LayoutTable) (m : Machine) : Prop where
  /-- A return gives the uppermost operand. -/
  operand : ∀ {index values s value}, m.Visits index values s → m.Returns s value →
    ∃ method, m.image.methods[s.frame.method]? = some method ∧ Gives method s.frame value
  /-- The result of a run is what its method returns. -/
  result : ∀ {index values outcome}, (m.run index values).1 = .ok outcome →
    ∃ s, m.Visits index values s ∧ s.frame.method = index ∧ m.Returns s outcome.ret
  /-- A slot of the result type keeps what a method returns that an accepted typing covers, if each
  field is accessed always in the static region or never there. -/
  kept : r.fieldsApart = true → ∀ {T : StackTyping},
    T.accepts m.image m.builtins r layout = true →
    ∀ {index values s v}, m.Visits index values s → m.Returns s (some v) →
    T.types s.frame.method = true → ∀ {method : LoadedMethod} {t : Tag},
    m.image.methods[s.frame.method]? = some method → method.retTag = t.id → t.isLoadable = true →
    t.Keeps v

/-- **Methods return their operands.** The image of a build can be read, and what methods return, to
their callers or at the end of a run, are their uppermost operands, whatever was run and written before.
A slot of the result type keeps them where a typing of the operand stacks is accepted. -/
theorem returns_operands {c : BuildContext} {start : MethodRef} {entry : Nat} {linked : Linked}
    {r : Registry} {b : Build} (hcompile : c.compileAndLink start {} = .ok (entry, linked) r)
    (hbuild : Build.ofLinked c r linked entry = .ok b) :
    ∃ image, LoadedImage.read b.bytes.toArray = .ok image ∧
      ∀ limits m, Session linked.layout (ofImage image c.builtins limits) m →
        m.ReturnsOperands r linked.layout := by
  obtain ⟨image, himage, hread⟩ := Image.exists_of_build hbuild
  refine ⟨image.loaded, hread, fun limits m hm => ⟨fun h hreturns => ?_, fun h => ?_, ?_⟩⟩
  · obtain ⟨method, op, next, args, hperformed⟩ := hreturns.performed
    exact ⟨method, hperformed.loaded, hperformed.gives.2⟩
  · exact (h ▸ m.run_ends _ _).result
  · intro hapart T hT index values s v h hreturns htypes method tag hmethod htag hloadable
    obtain ⟨t, hlayout, hslots, hstatics⟩ := ofImage_fits hcompile himage hapart limits
    rw [hlayout] at hm hT
    obtain ⟨hslots, hstatics⟩ := hm.runsSlots hslots hstatics
    have hvalue := h.returns hslots hstatics hT hreturns
    unfold StackTyping.Returns at hvalue
    rw [StackTyping.results_of_tag hmethod htag htypes] at hvalue
    cases hvalue with
    | cons hhas _ => exact (Tag.keeps_iff hloadable).2 hhas

/-- A program that puts two bytes of a number together, with a method that returns a byte on two ways. -/
def checksum : BuildContext where
  program := {
    types := #[{ name := "Checksum", methods := [⟨0⟩, ⟨1⟩] }]
    methods := #[
      { name := "Main", declaring := ⟨0⟩, params := [.primitive .i32], ret := .primitive .u16
        isStatic := true
        body := some { code := #[{ op := .slot .arguments .load 0 },
          { op := .call false ⟨.named ⟨0⟩ [], "Low", [.primitive .i32], .primitive .u8, false⟩ },
          { op := .slot .arguments .load 0 }, { op := .const (.i4 8) }, { op := .binary .shr },
          { op := .call false ⟨.named ⟨0⟩ [], "Low", [.primitive .i32], .primitive .u8, false⟩ },
          { op := .binary .xor }, { op := .ret }] } },
      { name := "Low", declaring := ⟨0⟩, params := [.primitive .i32], ret := .primitive .u8
        isStatic := true
        body := some { code := #[{ op := .slot .arguments .load 0 }, { op := .jumpIf true 4 },
          { op := .const (.i4 255) }, { op := .ret }, { op := .slot .arguments .load 0 },
          { op := .conv .u8 }, { op := .ret }] } }] }

def checksumEntry : MethodRef :=
  ⟨.named ⟨0⟩ [], "Main", [.primitive .i32], .primitive .u16, false⟩

def checksumRegistry : Registry := stateAfter (checksum.compileAndLink checksumEntry) {}

def checksumTyping : StackTyping :=
  let byte := Shape.ofTag .u8
  let int := Shape.int32
  [[(0, []), (3, [int]), (6, [byte]), (9, [int, byte]), (15, [int, int, byte]), (17, [int, byte]),
      (20, [byte, byte]), (22, [byte])],
    [(0, []), (3, [int]), (6, []), (12, [byte]), (13, []), (16, [int]), (17, [byte])]]

theorem checksum_returns_operands :
    ∃ entry linked b image,
      checksum.compileAndLink checksumEntry {} = .ok (entry, linked) checksumRegistry ∧
      Build.ofLinked checksum checksumRegistry linked entry = .ok b ∧
      checksumRegistry.fieldsApart = true ∧ LoadedImage.read b.bytes.toArray = .ok image ∧
      checksumTyping.accepts image checksum.builtins checksumRegistry linked.layout = true ∧
      ∀ limits m, Session linked.layout (ofImage image checksum.builtins limits) m →
        ∀ values outcome, (m.run 0 values).1 = .ok outcome →
          ∃ v, outcome.ret = some v ∧ Tag.u16.Keeps v := by
  obtain ⟨entry, linked, b, hrun, hb, h⟩ := @Build.exists_of_any checksum checksumEntry
    (fun built b => (read b.bytes.toArray).toOption.any fun image =>
      image.methods[0]?.any (·.retTag == Tag.u16.id) &&
        checksumTyping.accepts image checksum.builtins checksumRegistry built.2.layout)
    (by decide +kernel)
  have hapart : checksumRegistry.fieldsApart = true := by decide +kernel
  obtain ⟨image, hread, h⟩ := except_any_toOption.1 h
  obtain ⟨hmethod, haccepts⟩ := Bool.and_eq_true _ _ |>.mp h
  obtain ⟨method, hmethod, htag⟩ := Option.any_eq_true _ _ |>.1 hmethod
  have htag : method.retTag = Tag.u16.id := eq_of_beq htag
  obtain ⟨image', hread', hall⟩ := returns_operands hrun hb
  obtain rfl : image = image' := Except.ok.inj (hread.symm.trans hread')
  refine ⟨entry, linked, b, image, hrun, hb, hapart, hread, haccepts,
    fun limits m hm values outcome houtcome => ?_⟩
  have hreturns := hall limits m hm
  have himage : m.image = image := hm.same.1
  have hbuiltins : m.builtins = checksum.builtins := hm.same.2
  obtain ⟨s, hs, hindex, hresult⟩ := hreturns.result houtcome
  have hloaded : m.image.methods[s.frame.method]? = some method := by rw [himage, hindex, hmethod]
  obtain ⟨method', hmethod', hgives⟩ := hreturns.operand hs hresult
  obtain rfl : method = method' := Option.some.inj (hloaded.symm.trans hmethod')
  rcases hgives with ⟨hvoid, -⟩ | ⟨-, v, -, hv⟩
  · rw [htag] at hvoid
    cases hvoid
  · refine ⟨v, hv, hreturns.kept hapart (T := checksumTyping) ?_ hs (hv ▸ hresult) ?_ hloaded htag rfl⟩
    · rw [himage, hbuiltins]
      exact haccepts
    · rw [hindex]
      rfl

/-- A program whose method returns more than fits into the byte that it declares. -/
def spill : BuildContext where
  program := {
    types := #[{ name := "P", methods := [⟨0⟩] }]
    methods := #[
      { name := "Main", declaring := ⟨0⟩, ret := .primitive .u8, isStatic := true
        body := some { code := #[{ op := .const (.i4 300) }, { op := .ret }] } }] }

def spillEntry : MethodRef := ⟨.named ⟨0⟩ [], "Main", [], .primitive .u8, false⟩

def spillRegistry : Registry := stateAfter (spill.compileAndLink spillEntry) {}

theorem spill_not_kept :
    ∃ entry linked b image outcome,
      spill.compileAndLink spillEntry {} = .ok (entry, linked) spillRegistry ∧
      Build.ofLinked spill spillRegistry linked entry = .ok b ∧
      spillRegistry.fieldsApart = true ∧ LoadedImage.read b.bytes.toArray = .ok image ∧
      image.methods.map (·.retTag) = #[Tag.u8.id] ∧
      ((ofImage image spill.builtins {}).runEntry []).1 = .ok outcome ∧
      outcome.ret = some (.i4 300) ∧ ¬ Tag.u8.Keeps (.i4 300) := by
  obtain ⟨entry, linked, b, hrun, hb, h⟩ := @Build.exists_of_any spill spillEntry
    (fun _ b => (read b.bytes.toArray).toOption.any fun image =>
      (image.methods.map (·.retTag) == #[Tag.u8.id]) &&
        ((ofImage image spill.builtins {}).runEntry []).1.toOption.any fun outcome =>
          outcome.ret == some (.i4 300)) (by decide +kernel)
  have hapart : spillRegistry.fieldsApart = true := by decide +kernel
  obtain ⟨image, hread, h⟩ := except_any_toOption.1 h
  obtain ⟨htags, h⟩ := Bool.and_eq_true _ _ |>.mp h
  obtain ⟨outcome, houtcome, hret⟩ := except_any_toOption.1 h
  refine ⟨entry, linked, b, image, outcome, hrun, hb, hapart, hread, eq_of_beq htags,
    houtcome, eq_of_beq hret, fun hkeeps => ?_⟩
  exact absurd ((Tag.keeps_iff rfl).1 hkeeps).2 (by decide)

end Machine

end DeviceCode
