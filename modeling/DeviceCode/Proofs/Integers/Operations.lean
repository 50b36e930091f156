import DeviceCode.Proofs.CUnit.Variables

/-!
# The integer core

What operations on signed integers of 32 bits mean, whatever runs them. `Op.value?` is what an operation
computes, `Op.branch?` is where it goes, and `Op.Acts` says for each operation of the core what it makes
of a stack of integers. The machine and the C text are both measured against it.
-/

namespace DeviceCode

variable {op : Op} {ys : List Int32}

namespace Op

/-- The operations of the core. -/
def isInt32 : Op → Bool
  | .nop | .dup | .pop | .ret | .neg | .not | .binary _ | .compare _ _ => true
  | .jump _ | .jumpIf _ _ | .jumpCmp _ _ _ | .switch _ => true
  | .const (.i4 _) => true
  | .slot _ access _ | .field true access _ => access != .address
  | .call isVirtual _ => !isVirtual
  | _ => false

/-- The variable that an operation at a site loads or stores. -/
def accessed? (site : Site) : Op → Option (Access × CVar)
  | .slot .arguments access n => some (access, .argument n)
  | .slot .locals access n => some (access, .localVar n)
  | .field true access _ =>
    match site with
    | .field key _ _ _ => some (access, .static key)
    | _ => none
  | _ => none

/-- The integer that an operation computes from others. -/
def value? : Op → List Int32 → Option Int32
  | .binary op, [x, y] => (Value.integerOp x y op).toOption
  | .neg, [x] => some (-x)
  | .not, [x] => some (~~~x)
  | .compare relation isUnsigned, [x, y] =>
    some (if relation.comparison.holds isUnsigned x y then 1 else 0)
  | _, _ => none

/-- The instruction that an operation branches to; none if control goes on. -/
def branch? : Op → List Int32 → Option (Option Nat)
  | .jump t, [] => some (some t.toNat)
  | .jumpIf sense t, [x] => some (if (x != 0) = sense then some t.toNat else none)
  | .jumpCmp cmp isUnsigned t, [x, y] =>
    some (if cmp.holds isUnsigned x y then some t.toNat else none)
  | .switch targets, [x] => some (targets[x.toUInt32.toNat]?.map (·.toNat))
  | _, _ => none

end Op

/-- The sites of the core: calls of methods, and static fields for integers that are not shared with the
host. -/
def Site.isInt32 : Site → Bool
  | .plain | .call (.user _) _ _ => true
  | .field _ inStaticRegion host tag => inStaticRegion && !host && tag == .i32
  | _ => false

/-- What comes of an operation. The integers `xs` are those that are left on the stack. -/
inductive Action where
  | next (xs : List Int32)
  | store (home : Home) (x : Int32) (xs : List Int32)
  | branch (target : Option Nat) (xs : List Int32)
  | call (callee : Nat) (args xs : List Int32)
  | ret (value : Option Int32)

/-- What an operation of the method makes of a stack of integers, the uppermost last. -/
inductive Op.Acts (methods : Array CompiledMethod) (layout : LayoutTable) (m : CompiledMethod)
    (site : Site) (f : Frame) (statics : SlotArea) : Op → List Int32 → Action → Prop
  | nop {xs : List Int32} : Acts methods layout m site f statics .nop xs (.next xs)
  | load {op : Op} {v : CVar} {place : CPlace} {home : Home} {xs : List Int32}
    (accessed : op.accessed? site = some (.load, v)) (located : m.Locates layout v place home) :
    Acts methods layout m site f statics op xs (.next (xs ++ [home.read f statics]))
  | const {x : Int32} {xs : List Int32} :
    Acts methods layout m site f statics (.const (.i4 x)) xs (.next (xs ++ [x]))
  | dup {x : Int32} {xs : List Int32} :
    Acts methods layout m site f statics .dup (xs ++ [x]) (.next (xs ++ [x] ++ [x]))
  | pop {x : Int32} {xs : List Int32} :
    Acts methods layout m site f statics .pop (xs ++ [x]) (.next xs)
  | store {op : Op} {v : CVar} {place : CPlace} {home : Home} {x : Int32} {xs : List Int32}
    (accessed : op.accessed? site = some (.store, v)) (located : m.Locates layout v place home) :
    Acts methods layout m site f statics op (xs ++ [x]) (.store home x xs)
  | compute {op : Op} (ys : List Int32) {z : Int32} {xs : List Int32}
    (value : op.value? ys = some z) :
    Acts methods layout m site f statics op (xs ++ ys) (.next (xs ++ [z]))
  | branch {op : Op} (ys : List Int32) {target : Option Nat} {xs : List Int32}
    (goes : op.branch? ys = some target) :
    Acts methods layout m site f statics op (xs ++ ys) (.branch target xs)
  | call {isVirtual : Bool} {ref : MethodRef} {k pops : Nat} {storage : Option Storage}
    {target : CompiledMethod} {ys xs : List Int32} (called : site = .call (.user k) pops storage)
    (callee : methods[k]? = some target) (arity : ys.length = target.args.slots.size) :
    Acts methods layout m site f statics (.call isVirtual ref) (xs ++ ys) (.call k ys xs)
  | returnNone {xs : List Int32} (void : m.ret = none) :
    Acts methods layout m site f statics .ret xs (.ret none)
  | returnValue {x : Int32} {xs : List Int32} (result : m.ret ≠ none) :
    Acts methods layout m site f statics .ret (xs ++ [x]) (.ret (some x))

/-! ## Where control goes -/

/-- Control goes on to the next instruction. -/
def Action.goesOn : Action → Bool
  | .branch (some _) _ | .ret _ => false
  | _ => true

namespace Op

theorem endsFlow_of_accessed {site : Site} {access : Access × CVar}
    (h : op.accessed? site = some access) : op.endsFlow = false := by
  unfold accessed? at h
  split at h <;> first | rfl | cases h

theorem endsFlow_of_value {z : Int32} (h : op.value? ys = some z) : op.endsFlow = false := by
  unfold value? at h
  split at h <;> first | rfl | cases h

theorem endsFlow_of_branch (h : op.branch? ys = some none) : op.endsFlow = false := by
  unfold branch? at h
  split at h <;> first | rfl | cases h

theorem mem_targets_of_branch {target : Nat} (h : op.branch? ys = some (some target)) :
    target ∈ op.targets := by
  unfold branch? at h
  split at h
  · cases h
    exact List.mem_singleton_self _
  · obtain ⟨-, ht⟩ := Option.ite_none_right_eq_some.1 (Option.some.inj h)
    cases ht
    exact List.mem_singleton_self _
  · obtain ⟨-, ht⟩ := Option.ite_none_right_eq_some.1 (Option.some.inj h)
    cases ht
    exact List.mem_singleton_self _
  · obtain ⟨t, ht, rfl⟩ := Option.map_eq_some_iff.1 (Option.some.inj h)
    exact List.mem_map_of_mem (List.mem_of_getElem? ht)
  · cases h

section
variable {methods : Array CompiledMethod} {layout : LayoutTable} {m : CompiledMethod} {site : Site}
  {f : Frame} {statics : SlotArea} {xs : List Int32} {action : Action}

theorem Acts.endsFlow_eq (h : Acts methods layout m site f statics op xs action)
    (hgoesOn : action.goesOn = true) : op.endsFlow = false := by
  cases h with
  | nop | const | dup | pop | call _ _ _ => rfl
  | load accessed _ | store accessed _ => exact endsFlow_of_accessed accessed
  | compute _ value => exact endsFlow_of_value value
  | @branch _ _ target _ goes =>
    cases target with
    | none => exact endsFlow_of_branch goes
    | some t => cases hgoesOn
  | returnNone _ | returnValue _ => cases hgoesOn

theorem Acts.target_mem {target : Nat}
    (h : Acts methods layout m site f statics op xs (.branch (some target) ys)) :
    target ∈ op.targets := by
  cases h with
  | branch _ goes => exact mem_targets_of_branch goes

theorem Acts.ret_declared {value : Option Int32}
    (h : Acts methods layout m site f statics op xs (.ret value)) : value = none ↔ m.ret = none := by
  cases h with
  | returnNone void => exact iff_of_true rfl void
  | returnValue result => exact iff_of_false (Option.some_ne_none _) result

end

end Op

end DeviceCode
