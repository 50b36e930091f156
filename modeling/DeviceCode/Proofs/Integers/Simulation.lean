import DeviceCode.Proofs.CUnit.Unit
import DeviceCode.Proofs.Integers.Calls
import DeviceCode.Proofs.Integers.Machine

/-!
# The C text follows the machine

`Machine.WrittenAt` holds a method of the core on the machine together with its function in C, and
`WrittenAt.Meets` says that the machine stands at an instruction of the method and that a C frame mirrors
it at the head of the instruction. Main statements: `WrittenAt.advances`, a step of the machine is followed
by the statements of its instruction, and `run_agrees`, if the machine comes to the end of the run then the
function comes to what the method leaves behind, by induction on the steps that are left.
-/

namespace DeviceCode

open CEmitter

variable {index i pc : Nat} {f : Frame} {statics args area : SlotArea} {xs : List Int32}
  {cf cf' : CFrame} {statements : List CStmt} {m m' : Machine} {c : BuildContext} {r : Registry}
  {t : TypeTables} {callers : List Caller} {method : LoadedMethod} {values : List Value}
  {outcome : Outcome} {plan : CPlan} {u : CUnit} {state : Nat → CEmitter × Bool}

theorem Lowering.Lowers.targets_lt {l : Lowering} {targets : List UInt64} {o : LoweredOp}
    (h : l.Lowers index (.switch targets) o) : targets.length < 65536 := by
  cases h with
  | plain h =>
    obtain ⟨pieces, hp, -⟩ := except_bind_ok.1 h
    unfold switchPieces at hp
    split at hp
    · rename_i count hcount
      rw [← word16?_toNat hcount]
      exact count.toNat_lt
    · cases hp

theorem CFunction.Text.falls_runs {s : CScope} {code : Array Instruction} {fn : CFunction}
    (h : Text s plan code state fn)
    (hi : plan.entry? i = some (state i).1.types) (hlive : (state i).2 = true)
    {layout : LayoutTable} (hm : CEmitter.Mirrors s.method layout f statics xs (state i).1 cf) :
    ∃ cf', u.Goes fn cf (fn.after (state i).1) cf' (fn.after (headAt plan state i)) ∧
      CEmitter.Mirrors s.method layout f statics xs (headAt plan state i) cf' := by
  have hv := (h.consistent h.sound (Nat.le_of_lt (h.sound.lt hi))).valid
  have hw := h.within_head hi
  rcases falls hi hlive hv with ⟨-, heq⟩ | ⟨-, heq⟩
  · rw [heq]
    exact ⟨cf, .refl, hm⟩
  · rw [heq] at hw ⊢
    obtain ⟨cf', hgoes, hm', -⟩ := hm.spills (u := u) .nil hw.of_write
      (spills_materializeAll hv (List.forall_mem_nil _))
    refine ⟨cf', hgoes.trans ?_, hm'.holds.of_stack rfl, hm'.represents⟩
    rw [after_write hw]
    exact CUnit.goes_label i

/-! ## Methods on both sides -/

/-- What the function of a method is written in. -/
def MethodView.scope (v : MethodView) (c : BuildContext) (r : Registry) (t : TypeTables) : CScope :=
  ⟨r.methods, c.builtins, some t.layout, v.entry⟩

namespace Machine

/-- A method of the core on the machine, and its function. -/
structure WrittenAt (m : Machine) (c : BuildContext) (r : Registry) (t : TypeTables) (u : CUnit)
    (index : Nat) (v : MethodView) (g : CFunction) (plan : CPlan) (state : Nat → CEmitter × Bool) :
    Prop extends MethodAt m c r t index v where
  integers : (v.scope c r t).Integers t.layout
  core : ∀ i offset instruction o, v.OperationAt i offset instruction o →
    instruction.op.isInt32 = true ∧ o.site.isInt32 = true
  status : v.entry.cStatus.reason? = none
  function : u.function? index = some g
  text : CFunction.Text (v.scope c r t) plan v.body.code state g
  result : g.ret = CFunction.returnType v.entry
  locals : g.locals = CFunction.localDeclarations v.entry

/-- All methods of the machine are in the core, and the unit has their functions. -/
structure RunsIntegers (m : Machine) (c : BuildContext) (r : Registry) (t : TypeTables) (u : CUnit) :
    Prop extends RunsSlots m c r t where
  written : ∀ k < r.methods.size, ∃ v g plan state, m.WrittenAt c r t u k v g plan state

/-- The frame stands at the instruction `i` of the method, and the C frame mirrors it at the head of the
instruction. -/
structure Meets (t : TypeTables) (index : Nat) (v : MethodView) (plan : CPlan)
    (state : Nat → CEmitter × Bool) (f : Frame) (statics : SlotArea) (i pc : Nat) (xs : List Int32)
    (cf : CFrame) : Prop where
  method : f.method = index
  offset : v.entry.offset? i = some pc
  reached : ∃ types, plan.entry? i = some types
  mirrors : CEmitter.Mirrors v.entry t.layout f statics xs (CFunction.headAt plan state i) cf

/-- The statements lead to a place where the two sides meet again, unless the code has ended. -/
def GoesOn (t : TypeTables) (u : CUnit) (index : Nat) (v : MethodView) (g : CFunction) (plan : CPlan)
    (state : Nat → CEmitter × Bool) (f : Frame) (statics : SlotArea) (pc : Nat) (xs : List Int32)
    (cf : CFrame) (statements : List CStmt) : Prop :=
  f.method = index ∧ pc = v.method.code.size ∨ ∃ i cf', Meets t index v plan state f statics i pc xs cf' ∧
    u.Goes g cf statements cf' (g.after (CFunction.headAt plan state i))

section
variable {u : CUnit} {v : MethodView} {g : CFunction} {plan : CPlan} {state : Nat → CEmitter × Bool}
  (h : m.WrittenAt c r t u index v g plan state)
include h

/-- **A method starts** with the integers that were filled in. -/
theorem WrittenAt.starts {cargs statics cstatics : SlotArea}
    (hargs : v.entry.args.areaSlots.Intact args) (hstatics : t.layout.staticSlots.Intact statics)
    (hsameArgs : v.entry.args.areaSlots.SamePayloads args cargs)
    (hsameStatics : t.layout.staticSlots.SamePayloads statics cstatics) :
    GoesOn t u index v g plan state (Frame.enter index v.method args) statics 0 []
      (g.enter cargs cstatics) g.body := by
  by_cases hpos : 0 < v.body.code.size
  · have hrepresents := h.represents_enter h.integers.method h.locals hargs hstatics hsameArgs
      hsameStatics
    have hentry := h.text.sound.start hpos
    have hstart := h.text.start
    have hmirrors : CEmitter.Mirrors v.entry t.layout (Frame.enter index v.method args) statics []
        (state 0).1 (g.enter cargs cstatics) := ⟨by rw [hstart]; exact .nil, hrepresents⟩
    obtain ⟨cf', hgoes, hm⟩ := h.text.falls_runs (u := u) (by rw [hstart]; exact hentry)
      (by rw [hstart]) hmirrors
    refine .inr ⟨0, cf', ⟨rfl, h.installed.first_offset hpos, ⟨_, hentry⟩, hm⟩, ?_⟩
    rw [hstart] at hgoes
    exact hgoes
  · exact .inl ⟨rfl, (h.installed.size_code_of_empty h.record.code (by omega)).symm⟩

variable {instruction : Instruction} {o : LoweredOp} (hat : v.OperationAt i pc instruction o)
  {types : List CType} (hentry : plan.entry? i = some types)
include hat hentry

theorem WrittenAt.falls (hflow : instruction.op.endsFlow = false) {f' : Frame}
    (hf : f'.method = index) {statics' : SlotArea}
    (hm : CEmitter.Mirrors v.entry t.layout f' statics' xs (state (i + 1)).1 cf')
    (hgoes : u.Goes g cf statements cf' (g.after (state (i + 1)).1)) :
    GoesOn t u index v g plan state f' statics' (pc + Piece.totalSize o.pieces) xs cf statements := by
  have hw := h.text.written h.text.sound hentry hat.there
  have hlt := (Array.getElem?_eq_some_iff.1 hat.there).1
  obtain ⟨hnext, hlast⟩ := h.next_offset hat
  by_cases hend : i + 1 = v.body.code.size
  · exact .inl ⟨hf, hlast hend⟩
  · have hsuccessor : i + 1 ∈ instruction.op.successors i v.body.code.size := by
      simp only [Op.successors, hflow, List.mem_append]
      exact .inr (by simp; omega)
    have hentry' := hw.leaves _ hsuccessor
    obtain ⟨cf'', hgoes', hm'⟩ := h.text.falls_runs (u := u) hentry' (by rw [hw.live, hflow]; rfl) hm
    exact .inr ⟨i + 1, cf'', ⟨hf, hnext (by omega), ⟨_, hentry'⟩, hm'⟩, hgoes.trans hgoes'⟩

theorem WrittenAt.jumps {target : Nat} (ht : target ∈ instruction.op.targets) (hf : f.method = index)
    (hm : CEmitter.Mirrors v.entry t.layout f statics xs (state (i + 1)).1 cf')
    (hgoes : ∀ statements', g.behindLabel? target = some statements' →
      u.Goes g cf statements cf' statements') :
    GoesOn t u index v g plan state f statics (v.branchWord target).toNat xs cf statements := by
  have hw := h.text.written h.text.sound hentry hat.there
  have hentry' := hw.leaves target (List.mem_append_left _ ht)
  have hlabel := h.text.sound.label i target instruction hat.there ht (h.text.sound.lt hentry')
  have hstack : (CFunction.headAt plan state target).stack = (state (i + 1)).1.stack := by
    rw [CFunction.Text.stack_of_label hentry' hlabel, ← hw.emits.stack_of_target hw.head ht]
  refine .inr ⟨target, cf', ⟨hf, h.offset_of_target hat ht, ⟨_, hentry'⟩,
    hm.holds.of_stack hstack, hm.represents⟩, hgoes _ (h.text.behindLabel hentry' hlabel)⟩

end

/-- What a step of the machine comes to, and what the statements of the instruction do: control stays in
the method, or another method is called, or the method returns. -/
inductive Advances (m : Machine) (r : Registry) (t : TypeTables) (u : CUnit) (index : Nat)
    (v : MethodView) (g : CFunction) (plan : CPlan) (state : Nat → CEmitter × Bool)
    (callers : List Caller) (statics : SlotArea) (cf : CFrame) (statements : List CStmt) :
    Progress → Prop
  | stays {f' : Frame} {pc' : Nat} {xs' : List Int32} {statics' : SlotArea}
    (on : GoesOn t u index v g plan state f' statics' pc' xs' cf statements) :
    Advances m r t u index v g plan state callers statics cf statements
      (.running ⟨f'.holding pc' xs', callers, statics'⟩)
  | calls {k site : Nat} {target : CompiledMethod} {area cargs cstatics : SlotArea} {f' : Frame}
    {pc' : Nat} {xs' : List Int32} (callee : r.methods[k]? = some target)
    (intact : target.args.areaSlots.Intact area)
    (sameArgs : target.args.areaSlots.SamePayloads area cargs)
    (sameStatics : t.layout.staticSlots.SamePayloads statics cstatics)
    (back : ∀ g' result value args statics', u.function? k = some g' →
      u.Finishes g' (g'.enter cargs cstatics) g'.body result →
      result.Matches target t.layout value args statics' →
      GoesOn t u index v g plan state f' statics' pc' (xs' ++ value.toList) cf statements) :
    Advances m r t u index v g plan state callers statics cf statements
      (m.invoke k area (⟨f'.holding pc' xs', site⟩ :: callers) statics)
  | returns {value : Option Int32} {args : SlotArea} {result : CResult}
    (finishes : u.Finishes g cf statements result)
    (agrees : result.Matches v.entry t.layout value args statics) :
    Advances m r t u index v g plan state callers statics cf statements
      (m.returnTo callers (value.map .i4) args statics)

/-- **A step of the machine** is followed by the statements of its instruction. -/
theorem WrittenAt.advances (hr : m.RunsIntegers c r t u) {v : MethodView} {g : CFunction}
    (h : m.WrittenAt c r t u index v g plan state)
    (hmeets : Meets t index v plan state f statics i pc xs cf)
    (hok : ∀ e area, m.step ⟨f.holding pc xs, callers, statics⟩ ≠ .failed e area) :
    Advances m r t u index v g plan state callers statics cf
      (g.after (CFunction.headAt plan state i)) (m.step ⟨f.holding pc xs, callers, statics⟩) := by
  obtain ⟨types, hentry⟩ := hmeets.reached
  obtain ⟨instruction, hcode, hw⟩ := h.text.written_at hentry
  obtain ⟨offset, o, hat⟩ := h.operationAt hcode
  cases hat.offset.symm.trans hmeets.offset
  obtain ⟨hop, hsite⟩ := h.core i pc instruction o hat
  have hrepresents := hmeets.mirrors.represents
  have hintact : ∀ area, (v.entry.areaSlots area).Intact (f.area area) := by
    intro area
    cases area with
    | arguments => exact hrepresents.intactArgs
    | locals => exact hrepresents.intactLocals
  have hlt := (Array.getElem?_eq_some_iff.1 hcode).1
  have hstep := h.text.step_head hentry hcode
  have hwithin := h.text.within (Nat.succ_le_of_lt hlt)
  obtain ⟨action, hacts, hfollows⟩ := h.step_acts hr.toRunsSlots hat hop hsite h.integers.method
    hmeets.method hintact hrepresents.intactStatics hok
  generalize m.step ⟨f.holding pc xs, callers, statics⟩ = progress at hfollows
  cases hfollows with
  | next ys =>
    obtain ⟨cf', hgoes, hm'⟩ := next_runs (u := u) h.integers hat.site hsite hw.head hstep
      hwithin hmeets.mirrors hacts
    exact .stays (h.falls hat hentry (hacts.endsFlow_eq rfl) hmeets.method hm' hgoes)
  | store home x ys =>
    obtain ⟨cf', hgoes, hm'⟩ := store_runs (u := u) h.integers hat.site hsite hw.head hstep
      hwithin hmeets.mirrors h.locals hacts
    refine .stays (h.falls hat hentry (hacts.endsFlow_eq rfl) ?_ hm' hgoes)
    rw [home.method_putFrame]
    exact hmeets.method
  | passed ys =>
    obtain ⟨cf', hm', hpassed, -⟩ := branch_runs (u := u) hw.head hstep hwithin hmeets.mirrors
      (fun ts hts => (hts ▸ hat.lowers).targets_lt) hacts
    exact .stays (h.falls hat hentry (hacts.endsFlow_eq rfl) hmeets.method hm' (hpassed rfl))
  | taken target ys =>
    obtain ⟨cf', hm', -, htaken⟩ := branch_runs (u := u) hw.head hstep hwithin hmeets.mirrors
      (fun ts hts => (hts ▸ hat.lowers).targets_lt) hacts
    exact .stays (h.jumps hat hentry hacts.target_mem hmeets.method hm'
      fun statements => htaken target statements rfl)
  | @call k method area ys zs loaded filled =>
    have hk : k < r.methods.size := hr.size ▸ (Array.getElem?_eq_some_iff.1 loaded).1
    obtain ⟨v', g', plan', state', h'⟩ := hr.written k hk
    cases loaded.symm.trans h'.loaded
    obtain ⟨cargs, cstatics, hintact', hsameArgs, hsameStatics, hback⟩ := call_runs (u := u)
      hat.site hw.head hstep hwithin hmeets.mirrors h'.entry h'.integers.method h'.integers.result h'.status
      (tags_of_records h'.record.args) filled hacts
    refine .calls h'.entry hintact' hsameArgs hsameStatics ?_
    intro g'' result value args statics' hg hfinishes hmatches
    obtain ⟨cf', hgoes, hm'⟩ := hback g'' result value args statics' hg hfinishes hmatches
    exact h.falls hat hentry (hacts.endsFlow_eq rfl) hmeets.method hm' hgoes
  | ret value =>
    refine .returns (ret_runs h.integers hstep hwithin hmeets.mirrors h.result ?_ hacts)
      ⟨rfl, hacts.ret_declared, hrepresents.sameArgs, hrepresents.intactStatics, hrepresents.sameStatics⟩
    intro hlast
    rw [beq_iff_eq] at hlast
    rw [hlast, CFunction.after, h.text.body]
    exact List.drop_eq_nil_of_le (by simp)

/-! ## Runs -/

section
variable {n : Nat} {final : SlotArea}

theorem execute_failed {e : RunError} : m.execute n (.failed e area) ≠ (.ok outcome, final) := by
  cases n <;> exact fun h => by cases h

theorem execute_running {s : MachineState} (h : m.execute n (.running s) = (.ok outcome, final)) :
    ∃ n', n = n' + 1 ∧ m.execute n' (m.step s) = (.ok outcome, final) ∧
      ∀ e area, m.step s ≠ .failed e area := by
  cases n with
  | zero => cases h
  | succ n => exact ⟨n, rfl, h, fun e area hfailed => execute_failed
    (hfailed ▸ (show m.execute n (m.step s) = _ from h))⟩

theorem execute_ended (hloaded : m.image.methods[f.method]? = some method) :
    m.execute n (.running ⟨f.holding method.code.size xs, callers, statics⟩) ≠ (.ok outcome, final) := by
  intro h
  obtain ⟨n', -, -, hok⟩ := execute_running h
  refine hok (.truncated ⟨f.method, method.code.size⟩) statics ?_
  have hend : MachineOp.decode? method.code method.code.size = none := by
    simp [MachineOp.decode?, MachineOp.byteAt?]
  unfold step
  dsimp only [Frame.holding]
  rw [hloaded]
  dsimp only
  rw [hend]

theorem execute_invoke {k : Nat} (hloaded : m.image.methods[k]? = some method)
    (h : m.execute n (m.invoke k area callers statics) = (.ok outcome, final)) :
    m.execute n (.running ⟨(Frame.enter k method area).holding 0 [], callers, statics⟩) =
      (.ok outcome, final) := by
  unfold invoke at h
  split at h
  · exact absurd h execute_failed
  · rw [hloaded] at h
    exact h

theorem execute_returnTo {site : Nat} {value : Option Int32}
    (h : m.execute n (m.returnTo (⟨f.holding pc xs, site⟩ :: callers) (value.map .i4) args statics) =
      (.ok outcome, final)) :
    m.execute n (.running ⟨f.holding pc (xs ++ value.toList), callers, statics⟩) =
      (.ok outcome, final) := by
  cases value with
  | none =>
    rw [Option.toList_none, List.append_nil]
    exact h
  | some x =>
    unfold returnTo at h
    simp only [Option.map_some] at h
    split at h
    · exact absurd h execute_failed
    · rename_i frame hpush
      rw [Frame.push_holding hpush] at h
      exact h

theorem execute_returnTo_nil {value : Option Value}
    (h : m.execute n (m.returnTo [] value args statics) = (.ok outcome, final)) :
    outcome = ⟨value, args⟩ ∧ final = statics := by
  cases n <;> cases h <;> exact ⟨rfl, rfl⟩

theorem run_ok (h : m.run index values = (.ok outcome, m')) :
    ∃ method area, m.image.methods[index]? = some method ∧
      fillArguments index method.args values = .ok area ∧
      m.execute m.limits.stepBound (m.invoke index area [] m.statics) = (.ok outcome, m'.statics) := by
  unfold run at h
  cases hmethod : m.image.methods[index]? with
  | none =>
    rw [hmethod] at h
    cases h
  | some method =>
    rw [hmethod] at h
    dsimp only at h
    split at h
    · cases h
    cases hfill : fillArguments index method.args values with
    | error e =>
      rw [hfill] at h
      cases h
    | ok area =>
      rw [hfill] at h
      obtain ⟨houtcome, rfl⟩ := Prod.mk.inj h
      exact ⟨method, area, rfl, hfill, Prod.ext houtcome rfl⟩

end

/-- **If the machine comes to the end of the run**, the method returns, and its function comes to what
the method leaves behind. -/
theorem run_agrees (hr : m.RunsIntegers c r t u) {final : SlotArea} (n : Nat) :
    ∀ {index : Nat} {v : MethodView} {g : CFunction} {plan : CPlan} {state : Nat → CEmitter × Bool}
      {f : Frame} {statics : SlotArea} {pc : Nat} {xs : List Int32} {cf : CFrame}
      {callers : List Caller} {statements : List CStmt},
    m.WrittenAt c r t u index v g plan state →
    GoesOn t u index v g plan state f statics pc xs cf statements →
    m.execute n (.running ⟨f.holding pc xs, callers, statics⟩) = (.ok outcome, final) →
    ∃ n' < n, ∃ value args statics' result,
      m.execute n' (m.returnTo callers (value.map .i4) args statics') = (.ok outcome, final) ∧
      u.Finishes g cf statements result ∧ result.Matches v.entry t.layout value args statics' := by
  -- the steps that are left bound those of a method that is called and those after it has returned
  induction n using Nat.strongRecOn with
  | ind n ih =>
    intro index v g plan state f statics pc xs cf callers statements h hon hrun
    rcases hon with ⟨hf, rfl⟩ | ⟨i, cf', hmeets, hgoes⟩
    · exact absurd hrun (execute_ended (hf ▸ h.loaded))
    obtain ⟨n, rfl, hnext, hok⟩ := execute_running hrun
    have hadvances := h.advances hr hmeets hok
    generalize m.step ⟨f.holding pc xs, callers, statics⟩ = progress at hadvances hnext
    cases hadvances with
    | stays on =>
      obtain ⟨n', hlt, value, args, statics', result, hreturn, hfinishes, hmatches⟩ :=
        ih n (Nat.lt_succ_self n) h on hnext
      exact ⟨n', Nat.lt_succ_of_lt hlt, value, args, statics', result, hreturn, hgoes _ hfinishes,
        hmatches⟩
    | @calls k site target area cargs cstatics f' pc' xs' callee intact sameArgs sameStatics back =>
      obtain ⟨v', g', plan', state', h'⟩ := hr.written k (Array.getElem?_eq_some_iff.1 callee).1
      cases callee.symm.trans h'.entry
      obtain ⟨n₁, hlt₁, value, args, statics₁, result, hreturn, hfinishes, hmatches⟩ :=
        ih n (Nat.lt_succ_self n) h'
          (h'.starts intact hmeets.mirrors.represents.intactStatics sameArgs sameStatics)
          (execute_invoke h'.loaded hnext)
      obtain ⟨n₂, hlt₂, value', args', statics', result', hreturn', hfinishes', hmatches'⟩ :=
        ih n₁ (Nat.lt_succ_of_lt hlt₁) h
          (back g' result value args statics₁ h'.function hfinishes hmatches)
          (execute_returnTo hreturn)
      exact ⟨n₂, by omega, value', args', statics', result', hreturn', hgoes _ hfinishes', hmatches'⟩
    | @returns value args result finishes agrees =>
      exact ⟨n, Nat.lt_succ_self n, value, args, statics, result, hnext, hgoes _ finishes, agrees⟩

/-- **A method that the machine runs from outside**: its function, entered with the same arguments and
static fields, comes to what the run leaves behind. -/
theorem RunsIntegers.finishes (hr : m.RunsIntegers c r t u)
    (hstatics : t.layout.staticSlots.Intact m.statics)
    (hrun : m.run index values = (.ok outcome, m')) :
    ∃ v g plan state area, m.WrittenAt c r t u index v g plan state ∧
      fillArguments index v.method.args values = .ok area ∧
      ∀ cargs cstatics, v.entry.args.areaSlots.SamePayloads area cargs →
        t.layout.staticSlots.SamePayloads m.statics cstatics →
        ∃ value result, outcome.ret = value.map .i4 ∧
          u.Finishes g (g.enter cargs cstatics) g.body result ∧
          result.Matches v.entry t.layout value outcome.args m'.statics := by
  obtain ⟨method, area, hmethod, hfill, hexecute⟩ := run_ok hrun
  obtain ⟨v, g, plan, state, h⟩ := hr.written index (hr.size ▸ (Array.getElem?_eq_some_iff.1 hmethod).1)
  cases h.loaded.symm.trans hmethod
  have hintact := h.fill_fits values
  rw [hfill] at hintact
  refine ⟨v, g, plan, state, area, h, hfill, fun cargs cstatics hargs hregion => ?_⟩
  obtain ⟨n, -, value, args, statics, result, hreturn, hfinishes, hmatches⟩ :=
    run_agrees hr _ h (h.starts hintact hstatics hargs hregion) (execute_invoke h.loaded hexecute)
  obtain ⟨rfl, rfl⟩ := execute_returnTo_nil hreturn
  exact ⟨value, result, rfl, hfinishes, hmatches⟩

end Machine

end DeviceCode
