import DeviceCode.Proofs.Machine.Slots

/-!
# What one step does

`Machine.Moves` lists the ways a run goes on: in its frame, in a method that it calls, or in the frame
that waits for it, which then has the result among its operands. A return gives the uppermost operand as
it is (`Performed.gives`). Main statement: `step_cases`, for all machines and states.
-/

namespace DeviceCode

variable {place : CodeAddress} {value : Option Value} {args : SlotArea} {f : Frame}

theorem Frame.push_ok {f' : Frame} {maxStack : UInt16} {v : Value}
    (h : f.push maxStack place v = .ok f') : f' = { f with stack := f.stack.push v } := by
  unfold Frame.push at h
  split at h
  · cases h
  · cases h
    rfl

namespace Machine

/-- What a return from the frame gives: its uppermost operand, if the method has a result. -/
def Gives (method : LoadedMethod) (f : Frame) (value : Option Value) : Prop :=
  method.retTag = voidTag ∧ value = none ∨
    method.retTag ≠ voidTag ∧ ∃ v, f.stack.back? = some v ∧ value = some v

theorem gives_of_ret {m : Machine} {method : LoadedMethod} {statics : SlotArea}
    (h : m.perform method place f statics .ret = .ok (.ret value args)) : Gives method f value := by
  unfold perform at h
  dsimp only at h
  split at h
  · cases h
    exact .inl ⟨by assumption, rfl⟩
  · obtain ⟨e, hpop, h⟩ := except_bind_ok.1 h
    cases h
    refine .inr ⟨by assumption, e.1, ?_, rfl⟩
    unfold Frame.pop at hpop
    split at hpop
    · cases hpop
    · cases hpop
      assumption

/-- What the instruction at the position of the running frame does. -/
structure Performed (m : Machine) (s : MachineState) (method : LoadedMethod) (op : MachineOp)
    (next : Nat) (effect : Effect) : Prop where
  loaded : m.image.methods[s.frame.method]? = some method
  decoded : MachineOp.decode? method.code s.frame.pc = some (op, next)
  result : m.perform method ⟨s.frame.method, s.frame.pc⟩ { s.frame with pc := next } s.statics op =
    .ok effect

/-- How a run goes on: in the frame, in a method that it calls, or in the frame that waits for it. -/
inductive Moves (m : Machine) (s : MachineState) : MachineState → Prop
  | within {method : LoadedMethod} {op : MachineOp} {next : Nat} {f : Frame} {statics : SlotArea}
    (performed : m.Performed s method op next (.next f statics)) : Moves m s ⟨f, s.callers, statics⟩
  | enter {method : LoadedMethod} {op : MachineOp} {next : Nat} {f : Frame} {callee : Nat}
    {args : SlotArea} {target : LoadedMethod}
    (performed : m.Performed s method op next (.call f callee args))
    (known : m.image.methods[callee]? = some target) :
    Moves m s ⟨Frame.enter callee target args, ⟨f, s.frame.pc⟩ :: s.callers, s.statics⟩
  | leave {method : LoadedMethod} {op : MachineOp} {next : Nat} {value : Option Value}
    {args : SlotArea} {caller : Caller} {rest : List Caller} {f : Frame}
    (performed : m.Performed s method op next (.ret value args)) (waits : s.callers = caller :: rest)
    (same : caller.frame.Same f)
    (stack : f.stack.toList = caller.frame.stack.toList ++ value.toList) :
    Moves m s ⟨f, rest, s.statics⟩

/-- What a step leads to, unless it fails. -/
def StepCases (m : Machine) (s : MachineState) : Progress → Prop
  | .running s' => m.Moves s s'
  | .returned outcome _ => s.callers = [] ∧
      ∃ method op next args, m.Performed s method op next (.ret outcome.ret args)
  | .failed _ _ => True

section
variable {m : Machine} {s : MachineState} {method : LoadedMethod} {op : MachineOp} {next : Nat}

theorem invoke_cases {callee : Nat} (h : m.Performed s method op next (.call f callee args)) :
    m.StepCases s (m.invoke callee args (⟨f, s.frame.pc⟩ :: s.callers) s.statics) := by
  unfold invoke
  split
  · exact trivial
  · cases hknown : m.image.methods[callee]? with
    | none => exact trivial
    | some target => exact .enter h hknown

theorem returnTo_cases (h : m.Performed s method op next (.ret value args)) :
    m.StepCases s (m.returnTo s.callers value args s.statics) := by
  unfold returnTo
  cases hcallers : s.callers with
  | nil => exact ⟨hcallers, method, op, next, args, h⟩
  | cons caller rest =>
    cases value with
    | none => exact .leave h hcallers caller.frame.same_refl (by simp)
    | some v =>
      dsimp only
      split
      · exact trivial
      · rename_i f hf
        obtain rfl := Frame.push_ok hf
        exact .leave h hcallers ⟨rfl, rfl, fun area => by cases area <;> rfl⟩ (by simp)

end

/-- **What one step does.** -/
theorem step_cases (m : Machine) (s : MachineState) : m.StepCases s (m.step s) := by
  unfold step
  cases hmethod : m.image.methods[s.frame.method]? with
  | none =>
    simp only [hmethod]
    exact trivial
  | some method =>
    cases hdecode : MachineOp.decode? method.code s.frame.pc with
    | none =>
      simp only [hmethod, hdecode]
      exact trivial
    | some e =>
      simp only [hmethod, hdecode]
      split
      · exact trivial
      · rename_i f statics hnext
        exact .within ⟨hmethod, hdecode, hnext⟩
      · rename_i value args hret
        exact returnTo_cases ⟨hmethod, hdecode, hret⟩
      · rename_i f callee args hcall
        exact invoke_cases ⟨hmethod, hdecode, hcall⟩

theorem moves_of_step {m : Machine} {s s' : MachineState} (h : m.step s = .running s') :
    m.Moves s s' := by
  have hcases := step_cases m s
  rw [h] at hcases
  exact hcases

section
variable {m : Machine} {s : MachineState} {method : LoadedMethod} {op : MachineOp} {next : Nat}

theorem Performed.touches {effect : Effect} (h : m.Performed s method op next effect) :
    m.Touches method { s.frame with pc := next } s.statics op effect := by
  have htouches : Ensures _ _ (m.perform method ⟨s.frame.method, s.frame.pc⟩
    { s.frame with pc := next } s.statics op) := perform_touches
  rw [h.result] at htouches
  exact htouches

theorem Performed.gives (h : m.Performed s method op next (.ret value args)) :
    op = .ret ∧ Gives method s.frame value := by
  have hop : op = .ret := h.touches.1
  subst hop
  exact ⟨rfl, (gives_of_ret h.result : Gives method { s.frame with pc := next } value)⟩

theorem Moves.root {s' : MachineState} (h : m.Moves s s') :
    rootOf s'.frame.method s'.callers = rootOf s.frame.method s.callers := by
  cases h with
  | within performed =>
    have hmethod : _ = s.frame.method := performed.touches.1
    exact congrArg (rootOf · s.callers) hmethod
  | enter performed known =>
    have hmethod : _ = s.frame.method := performed.touches.2.1.method
    exact congrArg (rootOf · s.callers) hmethod
  | leave performed waits same stack =>
    rw [waits]
    exact congrArg (rootOf · _) same.method

end

end Machine

end DeviceCode
