import DeviceCode.Machine

/-!
# What an instruction does

`Machine.effect` and `Machine.exits` say what an instruction of the machine takes and leaves, and
where it goes. `Machine.Writes` says how it changes the variables of its frame and the static region: a
store to the one slot that it names, or not at all. `Machine.Fails` lists the ways in which it can fail.
Main statement: `perform_does`. `perform_ensures` is what it says of an instruction that finds its operands
and has room for its results, and `perform_touches` what it says of the areas, whatever the stack holds.
-/

namespace DeviceCode

namespace RunError

/-- The error says nothing about the stack, the code or the method table. -/
def IsOrdinary : RunError → Prop
  | stackUnderflow _ | stackOverflow _ | truncated _ | noSuchMethod _ => False
  | _ => True

/-- The error is not about a slot. -/
def IsNoSlot : RunError → Prop
  | badSlot _ _ => False
  | _ => True

end RunError

/-- The computation gives a value with the property `P`, or it fails with an error that has `E`. -/
def Ensures {α : Type} (E : RunError → Prop) (P : α → Prop) : Except RunError α → Prop
  | .ok a => P a
  | .error e => E e

namespace Ensures

variable {α β : Type} {E E' : RunError → Prop} {P P' : α → Prop} {Q : β → Prop} {x : Except RunError α}

theorem bind {f : α → Except RunError β} (hx : Ensures E P x)
    (hf : ∀ a, P a → Ensures E Q (f a)) : Ensures E Q (x >>= f) := by
  cases x with
  | ok a => exact hf a hx
  | error e => exact hx

theorem imp (hx : Ensures E P x) (hE : ∀ e, E e → E' e) (hP : ∀ a, P a → P' a) : Ensures E' P' x := by
  cases x with
  | ok a => exact hP a hx
  | error e => exact hE e hx

theorem operand {place : CodeAddress} (hE : ∀ fault : OperandFault, E (fault.toRunError place))
    (x : Except OperandFault α) : Ensures E (fun _ => True) (Machine.operand place x) := by
  cases x with
  | ok a => exact trivial
  | error e => exact hE e

end Ensures

open RunError (IsOrdinary IsNoSlot)

/-! ## Frames -/

namespace Frame

/-- The variables of a frame. -/
def area (f : Frame) : Area → SlotArea
  | .arguments => f.args
  | .locals => f.locals

/-- The frame with other variables in an area. -/
def setArea (f : Frame) (bytes : SlotArea) : Area → Frame
  | .arguments => { f with args := bytes }
  | .locals => { f with locals := bytes }

/-- The frame `f'` is `f` but for its variables and its operands, of which there are `n`. -/
structure HasDepth (f : Frame) (n : Nat) (f' : Frame) : Prop where
  method : f'.method = f.method
  pc : f'.pc = f.pc
  size : f'.stack.size = n

/-- The frame `f'` is `f` but for its operands. -/
structure Same (f f' : Frame) : Prop where
  method : f'.method = f.method
  pc : f'.pc = f.pc
  area : ∀ a, f'.area a = f.area a

/-- The frame `f'` is `f` but for its operands, of which there are `n`. -/
structure Leaves (f : Frame) (n : Nat) (f' : Frame) : Prop extends f.HasDepth n f', f.Same f'

/-- The frame `f'` is `f` with the value in one of its slots. -/
structure Stored (f : Frame) (area : Area) (slot : Nat) (v : Value) (f' : Frame) : Prop
    extends f.HasDepth f.stack.size f' where
  stored : (f.area area).store slot v = some (f'.area area)
  others : ∀ other, other ≠ area → f'.area other = f.area other

section
variable (f : Frame) (place : CodeAddress)

theorem same_refl : f.Same f := ⟨rfl, rfl, fun _ => rfl⟩

theorem leaves_stack (stack : Array Value) : f.Leaves stack.size { f with stack } :=
  ⟨⟨rfl, rfl, rfl⟩, fun a => by cases a <;> rfl⟩

variable {f' : Frame} {n : Nat}

variable {f} in
theorem Leaves.trans {f'' : Frame} {k : Nat} (h : f.Leaves n f') (h' : f'.Leaves k f'') :
    f.Leaves k f'' :=
  ⟨⟨h'.method.trans h.method, h'.pc.trans h.pc, h'.size⟩, fun a => (h'.area a).trans (h.area a)⟩

theorem push_leaves (maxStack : UInt16) (v : Value) :
    Ensures (fun e => e = .stackOverflow place ∧ maxStack.toNat < f.stack.size + 1)
      (f.Leaves (f.stack.size + 1)) (f.push maxStack place v) := by
  unfold push
  split
  · exact ⟨rfl, by omega⟩
  · exact (show (f.stack.push v).size = f.stack.size + 1 from Array.size_push v) ▸ f.leaves_stack
      (f.stack.push v)

theorem pop_leaves : Ensures (fun e => e = .stackUnderflow place ∧ f.stack.size < 1)
    (fun e => f.Leaves (f.stack.size - 1) e.2) (f.pop place) := by
  unfold pop
  split
  · rename_i hnone
    rw [Array.back?_eq_none_iff] at hnone
    exact ⟨rfl, by simp [hnone]⟩
  · exact (show f.stack.pop.size = f.stack.size - 1 from Array.size_pop) ▸ f.leaves_stack f.stack.pop

theorem pop₂_leaves : Ensures (fun e => e = .stackUnderflow place ∧ f.stack.size < 2)
    (fun e => f.Leaves (f.stack.size - 2) e.2.2) (f.pop₂ place) := by
  refine ((f.pop_leaves place).imp (fun e he => ⟨he.1, by omega⟩) fun _ h => h).bind fun e he => ?_
  have hsize := he.size
  refine ((e.2.pop_leaves place).imp (fun e he => ⟨he.1, by omega⟩) fun _ h => h).bind fun e' he' => ?_
  rw [hsize] at he'
  exact he.trans he'

theorem popMany_leaves (n : Nat) : Ensures (fun e => e = .stackUnderflow place ∧ f.stack.size < n)
    (fun e => f.Leaves (f.stack.size - n) e.2) (f.popMany place n) := by
  unfold popMany
  split
  · exact ⟨rfl, by assumption⟩
  · have hleaves := f.leaves_stack (f.stack.take (f.stack.size - n))
    have hsize : (f.stack.take (f.stack.size - n)).size = f.stack.size - n := by simp
    rwa [hsize] at hleaves

variable (area : Area) (slot : Nat) (v : Value)

theorem load_eq : f.load area slot =
    ((f.area area).load slot).elim (.error (.badSlot f.method slot)) .ok := by
  unfold load
  cases area <;> (dsimp only [Frame.area]; split <;> simp [*])

theorem store_eq : f.store area slot v =
    ((f.area area).store slot v).elim (.error (.badSlot f.method slot)) fun bytes =>
      .ok (f.setArea bytes area) := by
  unfold store
  cases area <;> (dsimp only [Frame.area]; cases SlotArea.store _ slot v <;> rfl)

theorem load_area : Ensures (fun e => e = .badSlot f.method slot ∧ (f.area area).load slot = none)
    (fun _ => True) (f.load area slot) := by
  rw [load_eq]
  cases (f.area area).load slot with
  | none => exact ⟨rfl, rfl⟩
  | some v => exact trivial

theorem store_area :
    Ensures (fun e => e = .badSlot f.method slot ∧ (f.area area).store slot v = none)
      (f.Stored area slot v) (f.store area slot v) := by
  rw [store_eq]
  cases hstored : (f.area area).store slot v with
  | none => exact ⟨rfl, rfl⟩
  | some bytes =>
    refine ⟨?_, hstored.trans (by cases area <;> rfl), fun other hother => ?_⟩
    · cases area <;> exact ⟨rfl, rfl, rfl⟩
    · cases area <;> cases other <;> trivial

end

end Frame

/-! ## Instructions -/

namespace Machine

/-- What an instruction takes from the stack and what it leaves on it. A call takes the arguments of
the method; its result comes with the return. -/
def effect (m : Machine) (method : LoadedMethod) : MachineOp → Nat × Nat
  | .nop | .jump _ | .unsupported _ => (0, 0)
  | .load _ _ | .const _ | .loadStatic _ => (0, 1)
  | .store _ _ | .pop | .jumpIf _ _ | .switch _ _ | .storeStatic _ => (1, 0)
  | .dup => (1, 2)
  | .ret => (if method.retTag = voidTag then 0 else 1, 0)
  | .jumpTest _ _ => (2, 0)
  | .binary _ | .compare _ => (2, 1)
  | .neg | .complement | .convert _ => (1, 1)
  | .call callee => ((m.image.methods[callee]?.map (·.args.length)).getD 0, 0)
  | .callBuiltin id => (((m.builtins.get? id).map fun b => Library.arity b.signature).getD 0, 1)

/-- Where control can go from an instruction in its frame, if the code behind it is at `next`. -/
def exits (code : Array UInt8) (next : Nat) : MachineOp → List Nat
  | .ret | .call _ | .unsupported _ => []
  | .jump target => [target]
  | .jumpIf _ target | .jumpTest _ target => [target, next]
  | .switch table count =>
    next :: (List.range count).map fun k =>
      ((MachineOp.wordAt? code (table + 2 * k)).getD 0).toNat
  | _ => [next]

/-- What an instruction does to the operands of a frame. -/
def Performs (m : Machine) (method : LoadedMethod) (f : Frame) (op : MachineOp) : Effect → Prop
  | .next f' _ => f'.method = f.method ∧ f'.pc ∈ exits method.code f.pc op ∧
      f'.stack.size = f.stack.size - (m.effect method op).1 + (m.effect method op).2
  | .ret value _ => op = .ret ∧ value.isSome = decide (method.retTag ≠ voidTag)
  | .call f' callee _ => op = .call callee ∧ callee < m.image.methods.size ∧
      f.HasDepth (f.stack.size - (m.effect method op).1) f'

/-- How an instruction changes the variables of its frame and the static region. -/
inductive Writes (f : Frame) (statics : SlotArea) : MachineOp → Frame → SlotArea → Prop
  | nothing {op : MachineOp} {f' : Frame} (same : ∀ area, f'.area area = f.area area) :
    Writes f statics op f' statics
  | toVariable {area : Area} {slot : Nat} {v : Value} {f' : Frame}
    (stored : (f.area area).store slot v = some (f'.area area))
    (others : ∀ other, other ≠ area → f'.area other = f.area other) :
    Writes f statics (.store area slot) f' statics
  | toStatic {slot : Nat} {v : Value} {f' : Frame} {statics' : SlotArea}
    (stored : statics.store slot v = some statics') (same : ∀ area, f'.area area = f.area area) :
    Writes f statics (.storeStatic slot) f' statics'

/-- What an instruction does to the areas, and where it goes. -/
def Touches (m : Machine) (method : LoadedMethod) (f : Frame) (statics : SlotArea) (op : MachineOp) :
    Effect → Prop
  | .next f' statics' => f'.method = f.method ∧ f'.pc ∈ exits method.code f.pc op ∧
      Writes f statics op f' statics'
  | .ret _ args => op = .ret ∧ args = f.args
  | .call f' callee args => op = .call callee ∧ f.Same f' ∧ ∃ target values,
      m.image.methods[callee]? = some target ∧ fillArguments callee target.args values = .ok args

/-- The errors of an instruction: one about a slot names the slot that the instruction names, which
cannot be loaded or stored. -/
inductive Misses (m : Machine) (place : CodeAddress) (f : Frame) (statics : SlotArea) :
    MachineOp → RunError → Prop
  | load {area : Area} {slot : Nat} (none : (f.area area).load slot = none) :
    Misses m place f statics (.load area slot) (.badSlot f.method slot)
  | store {area : Area} {slot : Nat} {v : Value} (none : (f.area area).store slot v = none) :
    Misses m place f statics (.store area slot) (.badSlot f.method slot)
  | loadStatic {slot : Nat} (none : statics.load slot = none) :
    Misses m place f statics (.loadStatic slot) (.badSlot place.method slot)
  | storeStatic {slot : Nat} {v : Value} (none : statics.store slot v = none) :
    Misses m place f statics (.storeStatic slot) (.badSlot place.method slot)
  | call {callee : Nat} {target : LoadedMethod} {values : List Value} {e : RunError}
    (known : m.image.methods[callee]? = some target)
    (failed : fillArguments callee target.args values = .error e) :
    Misses m place f statics (.call callee) e
  | other {op : MachineOp} {e : RunError} (ordinary : e.IsNoSlot) : Misses m place f statics op e

/-- How an instruction fails: an operand is missing, there is no room for what it leaves, it calls a method
that is unknown, or for a reason that is not the stack's. -/
inductive Fails (m : Machine) (method : LoadedMethod) (place : CodeAddress) (f : Frame)
    (statics : SlotArea) (op : MachineOp) : RunError → Prop
  | underflow (short : f.stack.size < (m.effect method op).1) :
    Fails m method place f statics op (.stackUnderflow place)
  | overflow (full : method.maxStack.toNat <
      f.stack.size - (m.effect method op).1 + (m.effect method op).2) :
    Fails m method place f statics op (.stackOverflow place)
  | unknown {callee : Nat} (call : op = .call callee) (none : m.image.methods[callee]? = none) :
    Fails m method place f statics op (.noSuchMethod callee)
  | misses {e : RunError} (misses : m.Misses place f statics op e) (ordinary : e.IsOrdinary) :
    Fails m method place f statics op e

theorem fillArguments_ensures (index : Nat) (slots : List SlotRecord) (values : List Value) :
    Ensures IsOrdinary (fun _ => True) (fillArguments index slots values) := by
  unfold fillArguments
  generalize SlotArea.ofSlots slots = area
  induction (SlotArea.slotOffsets slots).zip values generalizing area with
  | nil => exact trivial
  | cons e rest ih =>
    refine Ensures.bind (P := fun _ => True) ?_ fun area' _ => ih area'
    dsimp only
    split <;> exact trivial

/-- The computation does what the instruction is to do, or fails as that can. -/
def Does (m : Machine) (method : LoadedMethod) (place : CodeAddress) (f : Frame) (statics : SlotArea)
    (op : MachineOp) : Except RunError Effect → Prop :=
  Ensures (m.Fails method place f statics op) fun effect =>
    m.Performs method f op effect ∧ m.Touches method f statics op effect

section
variable {m : Machine} {method : LoadedMethod} {place : CodeAddress} {f : Frame}
  {statics : SlotArea} {op : MachineOp} {α : Type}

theorem Fails.other {e : RunError} (hordinary : e.IsOrdinary) (hslot : e.IsNoSlot) :
    m.Fails method place f statics op e := .misses (.other hslot) hordinary

theorem operand_fails (x : Except OperandFault α) :
    Ensures (m.Fails method place f statics op) (fun _ => True) (operand place x) :=
  .operand (fun fault => by cases fault <;> exact .other trivial trivial) x

theorem underflow_fails {P : α → Prop} {x : Except RunError α}
    (hx : Ensures (fun e => e = .stackUnderflow place ∧ f.stack.size < n) P x)
    (hn : (m.effect method op).1 = n) : Ensures (m.Fails method place f statics op) P x :=
  hx.imp (fun _ he => he.1 ▸ .underflow (hn ▸ he.2)) fun _ h => h

theorem next_does (hexit : f.pc ∈ exits method.code f.pc op)
    (h : f.Leaves (f.stack.size - (m.effect method op).1 + (m.effect method op).2) f') :
    m.Does method place f statics op (pure (.next f' statics)) :=
  ⟨⟨h.method, h.pc ▸ hexit, h.size⟩, h.method, h.pc ▸ hexit, .nothing h.area⟩

theorem push_does (hexit : f.pc ∈ exits method.code f.pc op) (h : f.Leaves n f')
    (hn : n + 1 = f.stack.size - (m.effect method op).1 + (m.effect method op).2) (v : Value) :
    m.Does method place f statics op
      (f'.push method.maxStack place v >>= fun f' => pure (.next f' statics)) := by
  have hpush := f'.push_leaves place method.maxStack v
  rw [h.size, hn] at hpush
  refine (hpush.imp (fun e he => ?_) fun _ h => h).bind fun f'' hf => next_does hexit (h.trans hf)
  obtain ⟨rfl, hfull⟩ := he
  exact .overflow hfull

theorem branch_does {target : Nat} (taken : Prop) [Decidable taken]
    (hexits : exits method.code f.pc op = [target, f.pc])
    (h : f.Leaves (f.stack.size - (m.effect method op).1 + (m.effect method op).2) f') :
    m.Does method place f statics op
      (pure (.next (if taken then { f' with pc := target } else f') statics)) := by
  split
  · have hexit : target ∈ exits method.code f.pc op := hexits ▸ List.mem_cons_self
    exact ⟨⟨h.method, hexit, h.size⟩, h.method, hexit, .nothing fun a => by
      rw [← h.area a]
      cases a <;> rfl⟩
  · exact next_does (by simp [hexits]) h

theorem callBuiltin_does (id : UInt16) : m.Does method place f statics (.callBuiltin id)
    (m.perform method place f statics (.callBuiltin id)) := by
  show m.Does method place f statics (.callBuiltin id)
    (m.callBuiltin place id method.maxStack f >>= fun f' => pure (.next f' statics))
  unfold callBuiltin
  split
  · exact .other trivial trivial
  · rename_i b hb
    have heffect : m.effect method (.callBuiltin id) = (Library.arity b.signature, 1) := by
      simp [effect, hb]
    rw [bind_assoc]
    refine (underflow_fails (f.popMany_leaves place _) (by rw [heffect])).bind fun e he => ?_
    dsimp only
    split
    · exact .other trivial trivial
    · exact push_does (by simp [exits]) he (by rw [heffect]) _

/-- **An instruction does what it is to do, or fails as it can.** -/
theorem perform_does :
    m.Does method place f statics op (m.perform method place f statics op) := by
  have same : f.Leaves f.stack.size f := f.leaves_stack f.stack
  cases op with
  | nop => exact next_does (by simp [exits]) same
  | load area slot =>
    refine ((f.load_area area slot).imp (fun e he => ?_) fun _ h => h).bind fun v _ => ?_
    · obtain ⟨rfl, hnone⟩ := he
      exact .misses (.load hnone) trivial
    · exact push_does (by simp [exits]) same rfl v
  | store area slot =>
    refine (underflow_fails (f.pop_leaves place) rfl).bind fun e he => ?_
    refine ((e.2.store_area area slot e.1).imp (fun err herr => ?_) fun _ h => h).bind fun f' hf => ?_
    · obtain ⟨rfl, hnone⟩ := herr
      rw [he.area] at hnone
      exact he.method ▸ .misses (.store hnone) trivial
    · have hstored := hf.stored
      rw [he.area] at hstored
      have hexit : f'.pc ∈ exits method.code f.pc (.store area slot) := by simp [exits, hf.pc, he.pc]
      exact ⟨⟨hf.method.trans he.method, hexit, hf.size.trans he.size⟩, hf.method.trans he.method, hexit,
        .toVariable hstored fun other hother => (hf.others other hother).trans (he.area other)⟩
  | const v => exact push_does (by simp [exits]) same rfl v
  | dup =>
    unfold perform
    dsimp only
    split
    · rename_i hnone
      rw [Array.back?_eq_none_iff] at hnone
      exact .underflow (by simp [hnone, effect])
    · rename_i hsome
      refine push_does (by simp [exits]) same ?_ _
      have hsize : f.stack.size ≠ 0 := fun hzero => by simp [Array.eq_empty_of_size_eq_zero hzero] at hsome
      show f.stack.size + 1 = f.stack.size - 1 + 2
      omega
  | pop =>
    refine (underflow_fails (f.pop_leaves place) rfl).bind fun e he => ?_
    exact next_does (by simp [exits]) he
  | ret =>
    unfold perform
    by_cases hvoid : method.retTag = voidTag
    · rw [if_pos hvoid]
      exact ⟨⟨rfl, by simp [hvoid]⟩, rfl, rfl⟩
    · rw [if_neg hvoid]
      have htakes : (m.effect method .ret).1 = 1 := if_neg hvoid
      refine (underflow_fails (f.pop_leaves place) htakes).bind fun e he => ?_
      exact ⟨⟨rfl, by simp [hvoid]⟩, rfl, he.area .arguments⟩
  | jump target =>
    exact ⟨⟨rfl, by simp [exits], rfl⟩, rfl, by simp [exits], .nothing fun a => by cases a <;> rfl⟩
  | jumpIf sense target =>
    refine (underflow_fails (f.pop_leaves place) rfl).bind fun e he => ?_
    exact branch_does _ rfl he
  | jumpTest test target =>
    refine (underflow_fails (f.pop₂_leaves place) rfl).bind fun e he => ?_
    refine (operand_fails _).bind fun taken _ => ?_
    exact branch_does _ rfl he
  | switch table count =>
    refine (underflow_fails (f.pop_leaves place) rfl).bind fun e he => ?_
    refine (operand_fails _).bind fun n _ => ?_
    have hexit : switchTarget method.code table count e.2.pc n ∈
        exits method.code f.pc (.switch table count) := by
      rw [switchTarget, he.pc]
      split
      · rename_i hlt
        exact List.mem_cons_of_mem _ (List.mem_map.2 ⟨_, List.mem_range.2 hlt, rfl⟩)
      · exact List.mem_cons_self
    refine ⟨⟨he.method, hexit, he.size⟩, he.method, hexit, .nothing fun a => ?_⟩
    rw [← he.area a]
    cases a <;> rfl
  | binary kind | compare test =>
    refine (underflow_fails (f.pop₂_leaves place) rfl).bind fun e he => ?_
    refine (operand_fails _).bind fun v _ => ?_
    exact push_does (by simp [exits]) he rfl _
  | neg | complement | convert conversion =>
    refine (underflow_fails (f.pop_leaves place) rfl).bind fun e he => ?_
    refine (operand_fails _).bind fun v _ => ?_
    exact push_does (by simp [exits]) he rfl v
  | loadStatic slot =>
    unfold perform
    dsimp only
    split
    · exact .misses (.loadStatic (by assumption)) trivial
    · exact push_does (by simp [exits]) same rfl _
  | storeStatic slot =>
    refine (underflow_fails (f.pop_leaves place) rfl).bind fun e he => ?_
    dsimp only
    split
    · exact .misses (.storeStatic (by assumption)) trivial
    · rename_i hstored
      have hexit : e.2.pc ∈ exits method.code f.pc (.storeStatic slot) := by simp [exits, he.pc]
      exact ⟨⟨he.method, hexit, he.size⟩, he.method, hexit, .toStatic hstored he.area⟩
  | call callee =>
    unfold perform
    dsimp only
    split
    · exact .unknown rfl (by assumption)
    · rename_i target htarget
      have heffect : m.effect method (.call callee) = (target.args.length, 0) := by simp [effect, htarget]
      refine (underflow_fails (f.popMany_leaves place _) (by rw [heffect])).bind fun e he => ?_
      have hfilled := fillArguments_ensures callee target.args e.1
      cases hfill : fillArguments callee target.args e.1 with
      | error err =>
        rw [hfill] at hfilled
        exact .misses (.call htarget hfill) hfilled
      | ok args =>
        refine ⟨⟨rfl, (Array.getElem?_eq_some_iff.1 htarget).1, ?_⟩, rfl, he.toSame, target, e.1, htarget,
          hfill⟩
        rw [heffect]
        exact he.toHasDepth
  | callBuiltin id => exact callBuiltin_does id
  | unsupported opcode => exact .other trivial trivial

/-- **An instruction that finds its operands and has room for its results** takes and leaves what its
effect says, or fails in an ordinary way. -/
theorem perform_ensures (hcallee : ∀ k, op = .call k → k < m.image.methods.size)
    (htakes : (m.effect method op).1 ≤ f.stack.size)
    (hroom : f.stack.size - (m.effect method op).1 + (m.effect method op).2 ≤
      method.maxStack.toNat) :
    Ensures IsOrdinary (m.Performs method f op) (m.perform method place f statics op) := by
  refine Ensures.imp perform_does (fun e he => ?_) fun _ h => h.1
  cases he with
  | underflow short | overflow full => omega
  | unknown call none =>
    have hlt := Array.getElem?_eq_none_iff.1 none
    have hlt' := hcallee _ call
    omega
  | misses _ ordinary => exact ordinary

/-- **An instruction touches the slot that it names**, if it is a store, and no other byte. -/
theorem perform_touches :
    Ensures (m.Misses place f statics op) (m.Touches method f statics op)
      (m.perform method place f statics op) := by
  refine Ensures.imp perform_does (fun e he => ?_) fun _ h => h.2
  cases he with
  | misses misses => exact misses
  | _ => exact .other trivial

end

end Machine

end DeviceCode
