import DeviceCode.Proofs.Integers.Statements
import DeviceCode.Proofs.Machine.Profile

/-!
# Methods of the core

`Registry.isInt32`: all methods of a build are in the core, that is, their variables and results are signed
integers of 32 bits, their calls agree with the methods that they reach, and they use the operations of the
core only. Main statement: `CPlan.ofMethod_int32`, a method of the core has a plan for C unless it
calls a method that has none. All operands are signed integers, so the depths of the stack profile say
all about the types.
-/

namespace DeviceCode

open Registry

open COperand

open List

namespace CompiledMethod

/-- The method is in the core. -/
def isInt32 (c : BuildContext) (methods : Array CompiledMethod) (m : CompiledMethod) : Bool :=
  m.args.slots.all (·.tag == .i32) && m.locals.slots.all (·.tag == .i32) &&
    m.ret.all (·.tag == .i32) && decide (m.args.size < 65535) &&
    (Registry.operations c m).all fun e =>
      e.1.isInt32 && e.2.isInt32 && Registry.siteAgrees c.builtins methods e.1 e.2

/-- What `isInt32` says. -/
structure Core (c : BuildContext) (methods : Array CompiledMethod) (m : CompiledMethod) : Prop where
  args : ∀ slot ∈ m.args.slots, slot.tag = .i32
  locals : ∀ slot ∈ m.locals.slots, slot.tag = .i32
  result : ∀ storage, m.ret = some storage → storage.tag = .i32
  small : m.args.size < 65535
  operations : ∀ e ∈ Registry.operations c m, e.1.isInt32 = true ∧ e.2.isInt32 = true ∧
    Registry.siteAgrees c.builtins methods e.1 e.2 = true

theorem core_iff {c : BuildContext} {methods : Array CompiledMethod} {m : CompiledMethod} :
    m.isInt32 c methods = true ↔ Core c methods m := by
  constructor
  · intro h
    simp only [isInt32, Bool.and_eq_true, Array.all_eq_true_iff_forall_mem, all_eq_true, beq_iff_eq,
      decide_eq_true_eq, Option.all_eq_true, and_assoc] at h
    obtain ⟨hargs, hlocals, hret, hsmall, hops⟩ := h
    exact ⟨hargs, hlocals, fun storage => hret storage, hsmall, hops⟩
  · intro h
    simp only [isInt32, Bool.and_eq_true, Array.all_eq_true_iff_forall_mem, all_eq_true, beq_iff_eq,
      decide_eq_true_eq, Option.all_eq_true, and_assoc]
    exact ⟨h.args, h.locals, h.result, h.small, h.operations⟩

end CompiledMethod

/-- All methods of the build are in the core. -/
def Registry.isInt32 (c : BuildContext) (r : Registry) : Bool :=
  r.methods.all (·.isInt32 c r.methods)

/-! ## Types of operands -/

/-- The method can be called on integers from C. -/
structure CompiledMethod.Callable (m : CompiledMethod) : Prop where
  free : m.cStatus.reason? = none
  args : ∀ slot ∈ m.args.slots, slot.tag = .i32
  result : ∀ storage, m.ret = some storage → storage.tag = .i32

/-- A method on integers is planned, and all methods can be called. -/
structure CScope.Integral (s : CScope) : Prop where
  layout : s.layout = none
  methods : ∀ (k : Nat) target, s.methods[k]? = some target → target.Callable
  args : ∀ slot ∈ s.method.args.slots, slot.tag = .i32
  locals : ∀ slot ∈ s.method.locals.slots, slot.tag = .i32
  result : ∀ storage, s.method.ret = some storage → storage.tag = .i32

/-- An instruction of the core and what is known about it when its method is planned. -/
structure CScope.Plans (s : CScope) (l : Lowering) (index : Nat) (op : Op) (o : LoweredOp) : Prop where
  lowers : l.Lowers index op o
  args : l.args = s.method.args
  locals : l.locals = s.method.locals
  site : s.method.sites[index]? = some o.site
  core : op.isInt32 = true ∧ o.site.isInt32 = true
  agrees : Registry.siteAgrees s.builtins s.methods op o.site = true
  callee : ∀ k pops storage, o.site = .call (.user k) pops storage → k < s.methods.size

namespace CEmitter

section
variable {s : CScope} (hs : s.Integral) {l : Lowering} {index : Nat} {op : Op} {o : LoweredOp}
  {access : Access}
include hs

theorem accesses_slot {area : Area} {n : UInt16} (h : s.Plans l index (.slot area access n) o) :
    ∃ place v, Accesses s index access (.slot area access n) place .i4 v := by
  have htag : ∀ {list : SlotList} {slot : Slot}, (∀ slot ∈ list.slots, slot.tag = .i32) →
      list.get? n = some slot → CType.ofTag? slot.tag = some .i4 := fun hall hget =>
    congrArg CType.ofTag? (hall _ (Array.mem_of_getElem? hget))
  cases h.lowers with
  | plain hplain =>
    obtain ⟨slot, hslot, -⟩ := except_bind_ok.1 hplain
    unfold Lowering.slot at hslot
    cases area with
    | arguments =>
      dsimp only at hslot
      split at hslot
      · rename_i slot hget
        rw [h.args] at hget
        exact ⟨_, _, .argument hget (htag hs.args hget)⟩
      · cases hslot
    | locals =>
      dsimp only at hslot
      split at hslot
      · rename_i slot hget
        rw [h.locals] at hget
        exact ⟨_, _, .localVar hget (htag hs.locals hget)⟩
      · cases hslot

theorem accesses_static {f : FieldRef} (h : s.Plans l index (.field true access f) o) :
    ∃ place v, Accesses s index access (.field true access f) place .i4 v := by
  obtain ⟨-, hint⟩ := h.core
  have hsite := h.site
  cases h.lowers with
  | plain hplain => cases hplain
  | field _ _ _ key region host tag _ _ _ _ =>
    simp only [Site.isInt32, Bool.and_eq_true, Bool.not_eq_true', beq_iff_eq] at hint
    obtain ⟨⟨-, rfl⟩, rfl⟩ := hint
    exact ⟨_, _, .static hsite rfl (by rw [staticOffset, hs.layout])⟩

/-- The method that an instruction calls takes and leaves as many integers as the call says. -/
theorem calls_int32 {isVirtual : Bool} {m : MethodRef} (h : s.Plans l index (.call isVirtual m) o) :
    ∃ k target, Calls s index (.call isVirtual m) k target (target.ret.map fun _ => .i4)
        (target.args.slots.toList.map fun slot => (slot.offset + 1, .i4)) ∧
      m.pops = target.args.slots.size ∧ m.pushes = target.ret.isSome.toNat := by
  obtain ⟨-, hint⟩ := h.core
  have hsite := h.site
  have hagrees := h.agrees
  have hcallee := h.callee
  cases h.lowers with
  | plain hplain => cases hplain
  | call _ _ target key storage wide =>
    cases target with
    | user k =>
      have hget := Array.getElem?_eq_getElem (hcallee k m.pops storage rfl)
      have hcallable := hs.methods k _ hget
      simp only [siteAgrees, hget, Option.all_some, Bool.and_eq_true, beq_iff_eq] at hagrees
      refine ⟨k, _, ⟨⟨_, _, rfl⟩, ⟨_, _, hsite⟩, hget, hcallable.free, resultType_int32 hcallable.result,
        argumentSlots_int32 fun slot hslot => hcallable.args slot (Array.mem_toList_iff.1 hslot)⟩,
        hagrees⟩
    | _ => cases hint

/-- **The operations of the core take integers and leave integers**, as many as the stack profile
counts. -/
theorem typing_int32 (h : s.Plans l index op o) (ts : List CType) :
    Typing s index op (ts ++ List.replicate (Registry.effectOf s.method index op).1 .i4)
      (ts ++ List.replicate (Registry.effectOf s.method index op).2 .i4) := by
  have hone := (means_int s.method default default 1).toYields
  -- the rules of `Typing`, in the form of the goal
  have loads : ∀ {op place v}, Accesses s index .load op place .i4 v →
      Typing s index op (ts ++ []) (ts ++ [.i4]) := fun h => by
    rw [append_nil]
    exact .load h
  have stores : ∀ {op place v}, Accesses s index .store op place .i4 v →
      Typing s index op (ts ++ [.i4]) (ts ++ []) := fun h => by
    rw [append_nil]
    exact .store h
  have computes : ∀ {op parts o}, Computes s index op parts o → o.type = .i4 →
      Typing s index op (ts ++ parts.map (·.type)) (ts ++ [.i4]) := fun h htype => htype ▸ .compute h
  have branches : ∀ {op parts st}, Branches op parts st →
      Typing s index op (ts ++ parts.map (·.type)) (ts ++ []) := fun {op parts st} h => by
    rw [append_nil ts]
    exact .branch h
  obtain ⟨hop, -⟩ := h.core
  cases op with
  | nop =>
    exact .nop
  | slot area access n =>
    obtain ⟨place, v, haccess⟩ := accesses_slot hs h
    cases access with
    | load => exact loads haccess
    | store => exact stores haccess
    | address => cases hop
  | field isStatic access f =>
    cases isStatic with
    | false => cases hop
    | true =>
      obtain ⟨place, v, haccess⟩ := accesses_static hs h
      cases access with
      | load => exact loads haccess
      | store => exact stores haccess
      | address => cases hop
  | const value =>
    cases value with
    | i4 x =>
      show Typing s index _ (ts ++ []) (ts ++ [.i4])
      rw [append_nil]
      exact .literal (.i4 x)
    | _ => cases hop
  | dup => exact .dup
  | pop =>
    show Typing s index _ (ts ++ [.i4]) (ts ++ [])
    rw [append_nil]
    exact .pop
  | binary b =>
    obtain ⟨z, hz⟩ : ∃ z, Value.integerOp 1 1 b = .ok z := by cases b <;> exact ⟨_, rfl⟩
    obtain ⟨o, ho, hyields⟩ := binary_yields hone hone hz
    exact computes (.binary ho) hyields.type_eq
  | neg =>
    obtain ⟨o, ho, hyields⟩ := neg_yields hone
    exact computes (.neg ho) hyields.type_eq
  | not =>
    obtain ⟨o, ho, hyields⟩ := complement_yields hone
    exact computes (.not ho) hyields.type_eq
  | compare relation isUnsigned =>
    obtain ⟨o, ho, hyields⟩ := compare_yields relation.comparison isUnsigned hone hone
    exact computes (.compare ho) hyields.type_eq
  | jump t => exact branches (.jump t)
  | jumpIf sense t => exact branches (.jumpIf sense t (int 1))
  | jumpCmp cmp isUnsigned t =>
    obtain ⟨o, ho, -⟩ := compare_yields cmp isUnsigned hone hone
    exact branches (.jumpCmp t ho)
  | switch targets => exact branches (.switch targets (int 1))
  | call isVirtual m =>
    obtain ⟨k, target, hcalls, hpops, hpushes⟩ := calls_int32 hs h
    have hleft : replicate m.pushes CType.i4 =
        ((target.ret.map fun _ => CType.i4).map (·.stackClass)).toList := by
      rw [hpushes]
      cases target.ret <;> rfl
    show Typing s index _ (ts ++ replicate m.pops .i4) (ts ++ replicate m.pushes .i4)
    rw [hleft]
    exact .call hcalls (by simp [hpops])
  | ret =>
    cases hret : s.method.ret with
    | none =>
      have heffect : effectOf s.method index .ret = (0, 0) := by
        simp [effectOf, Op.effect, hret]
      rw [heffect]
      exact append_nil ts ▸ .returnNone hret
    | some storage =>
      obtain ⟨narrowed, rfl⟩ := Storage.eq_scalar (hs.result storage hret)
      have heffect : effectOf s.method index .ret = (1, 0) := by
        simp [effectOf, Op.effect, hret]
      rw [heffect]
      show Typing s index _ (ts ++ [.i4]) (ts ++ [])
      rw [append_nil]
      exact .returnValue (.inl ⟨_, _, hret⟩)
  | _ => cases hop

end

end CEmitter

/-! ## Plans -/

namespace CPlan

theorem foldlM_join_ok {types : List CType} : ∀ {nexts : List Nat} {entries : Array (Option (List CType))},
    (∀ j ∈ nexts, ∀ known, entries[j]?.join = some known → known = types) →
    ∃ entries', nexts.foldlM (join types) entries = .ok entries'
  | [], entries, _ => ⟨entries, rfl⟩
  | j :: nexts, entries, h => by
    obtain ⟨entries₁, hjoin, hkept⟩ : ∃ entries₁, join types entries j = .ok entries₁ ∧
        ∀ (i : Nat) known, entries₁[i]?.join = some known →
          entries[i]?.join = some known ∨ known = types := by
      unfold join
      cases hj : entries[j]?.join with
      | some known =>
        exact ⟨entries, if_pos (h j mem_cons_self known hj), fun _ _ => .inl⟩
      | none =>
        refine ⟨_, rfl, fun i known hi => ?_⟩
        rw [Array.getElem?_setIfInBounds] at hi
        split at hi
        · split at hi
          · exact .inr (Option.some.inj hi).symm
          · cases hi
        · exact .inl hi
    have hknown : ∀ i ∈ nexts, ∀ known, entries₁[i]?.join = some known → known = types :=
      fun i hi known hi₁ => (hkept i known hi₁).elim (h i (mem_cons_of_mem _ hi) known) id
    obtain ⟨entries', hrest⟩ := foldlM_join_ok hknown
    refine ⟨entries', ?_⟩
    exact except_bind_ok.2 ⟨entries₁, hjoin, hrest⟩

section
variable {s : CScope} {code : Array Instruction}

/-- All types that are known are those of integers, as many as the stack profile counts. -/
def Counted (method : CompiledMethod) (entries : Array (Option (List CType))) : Prop :=
  ∀ (i : Nat) types, entries[i]?.join = some types →
    ∃ n, method.profile.depth? i = some n ∧ types = List.replicate n .i4

variable (hs : s.Integral)
  (hprofile : StackProfile.Describes code (Registry.effectOf s.method) s.method.profile) {l : Lowering}
  (hplans : ∀ (i : Nat) instruction, code[i]? = some instruction → ∃ o, s.Plans l i instruction.op o)
include hs hprofile hplans

theorem Visited.visit_int32 {done : List Visit} {entries : Array (Option (List CType))}
    (h : Visited s code done entries) (hcounted : Counted s.method entries)
    {v : Visit} (hf : StackProfile.Follows code done v) {instruction : Instruction}
    (hcode : code[v.index]? = some instruction) :
    ∃ entries', CPlan.visit s code entries v = .ok entries' ∧
      Visited s code (done ++ [v]) entries' ∧ Counted s.method entries' := by
  obtain ⟨types, htypes⟩ := h.known hf (Array.getElem?_eq_some_iff.1 hcode).1
  obtain ⟨n, hn, rfl⟩ := hcounted _ _ htypes
  obtain ⟨instruction', hfits, hnext⟩ := hprofile.fits v.index n hn
  cases hcode.symm.trans hfits.there
  obtain ⟨o, ho⟩ := hplans _ _ hcode
  have hclasses := h.classes _ _ htypes
  have htyping := CEmitter.typing_int32 hs ho
    (replicate (n - (effectOf s.method v.index instruction.op).1) .i4)
  rw [← replicate_add, ← replicate_add, Nat.sub_add_cancel hfits.takes,
    ← CEmitter.types_of_stack (e := { stack := CEmitter.canonicalStack (replicate n .i4) }) hclasses
      rfl] at htyping
  obtain ⟨e', hstep, -, htypes'⟩ := htyping.step (CEmitter.valid_of_stack hclasses rfl)
    (v.index + 1 == code.size)
  have hknown : ∀ j ∈ instruction.op.successors v.index code.size, ∀ known,
      entries[j]?.join = some known → known = e'.types := by
    intro j hj known hjoin
    obtain ⟨n', hn', rfl⟩ := hcounted j known hjoin
    cases (hnext j hj).symm.trans hn'
    exact htypes'.symm
  obtain ⟨entries', hjoin⟩ := foldlM_join_ok hknown
  have hvisit : CPlan.visit s code entries v = .ok entries' := by
    unfold CPlan.visit
    rw [hcode, htypes]
    exact except_bind_ok.2 ⟨e', hstep, hjoin⟩
  refine ⟨entries', hvisit, h.visit hprofile hf hcode hvisit, fun i known hi => ?_⟩
  have hsuccessors : ∀ j ∈ instruction.op.successors v.index code.size, j < entries.size :=
    fun j hj => h.size.symm ▸ Op.lt_of_mem_successors hfits.targets hj
  rcases (joined_of_foldlM hsuccessors hjoin).origin i known hi with hold | ⟨hmem, rfl⟩
  · exact hcounted i known hold
  · exact ⟨_, hnext i hmem, htypes'⟩

/-- **A method of the core has a plan.** -/
theorem ofMethod_int32 : ∃ plan, ofMethod s.methods s.builtins s.method code = .ok plan := by
  have hstart : Counted s.method (noVisits code) := by
    intro i types h
    obtain ⟨rfl, hpos, rfl⟩ := entry_start h
    exact ⟨0, hprofile.start hpos, rfl⟩
  have hvisits : ∀ done v rest entries, s.method.profile.order.toList = done ++ v :: rest →
      (Visited s code done entries ∧ Counted s.method entries) →
      ∃ entries', visit s code entries v = .ok entries' ∧
        Visited s code (done ++ [v]) entries' ∧ Counted s.method entries' := by
    rintro done v rest entries hsplit ⟨hvisited, hcounted⟩
    obtain ⟨instruction, hcode⟩ := exists_of_mem_order hprofile (mem_order_of_split hsplit)
    exact hvisited.visit_int32 hs hprofile hplans hcounted
      (hprofile.follows done v rest hsplit) hcode
  obtain ⟨entries, hfold, -⟩ :=
    except_foldlM_exists _ hvisits ⟨visited_start hprofile, hstart⟩
  rw [ofMethod_eq hs.layout]
  exact ⟨⟨entries, labelsOf code⟩, except_bind_ok.2 ⟨entries, hfold, rfl⟩⟩

end

end CPlan

end DeviceCode
