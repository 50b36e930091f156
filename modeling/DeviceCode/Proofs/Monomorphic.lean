import DeviceCode.Dispatch
import DeviceCode.Program.Resolve

/-!
# Programs without generic types

`Program.typeRefs` lists the type references of a program, wherever they stand. A program is
monomorphic when no type that it names has arguments; its methods, bases and interfaces may refer to
each other in any way. In such a program the search for a field, a method or an implementation ends at
a type without arguments.
-/

namespace DeviceCode

open List

variable {id : MethodId} {args : List TypeRef} {p : Program} {d : TypeDef} {t : TypeRef}
  {m : MethodDef} {b : Body} {T : TypeRef → Prop}

namespace TypeRef

/-- The named types in it have no arguments. -/
def isMonomorphic : TypeRef → Bool
  | named _ args => args.isEmpty
  | array t | byRef t | pointer t => t.isMonomorphic
  | _ => true

@[simp] theorem isMonomorphic_named {id : TypeId} :
    (named id args).isMonomorphic = true ↔ args = [] := isEmpty_iff

mutual

theorem substitute_nil : ∀ t : TypeRef, t.substitute [] = t
  | void | primitive _ | string | object | param _ => by simp [substitute]
  | array t | byRef t | pointer t => by rw [substitute, substitute_nil t]
  | named id args => by rw [substitute, substituteAll_nil args]

theorem substituteAll_nil : ∀ ts : List TypeRef, substituteAll [] ts = ts
  | [] => by rw [substituteAll]
  | t :: ts => by rw [substituteAll, substitute_nil t, substituteAll_nil ts]

end

end TypeRef

/-! ## The types that a program names -/

def MethodRef.typeRefs (m : MethodRef) : List TypeRef := m.owner :: m.ret :: m.params

/-- The types in the operand of an operation. -/
def Op.typeRefs : Op → List TypeRef
  | .initObject t | .castClass t | .box t | .unbox t | .newArray t | .elementAddress t
  | .loadElement (.any t) | .storeElement (.any t) => [t]
  | .field _ _ f => [f.owner]
  | .newObject m | .call _ m | .methodAddress m => m.typeRefs
  | _ => []

def Body.typeRefs (b : Body) : List TypeRef :=
  b.locals ++ b.code.toList.flatMap fun i => i.op.typeRefs

def MethodDef.typeRefs (m : MethodDef) : List TypeRef :=
  m.ret :: m.params ++ m.body.toList.flatMap Body.typeRefs

def TypeDef.typeRefs (d : TypeDef) : List TypeRef :=
  d.base.toList ++ d.interfaces ++ d.fields.map (·.type)

namespace Program

def typeRefs (p : Program) : List TypeRef :=
  p.types.toList.flatMap TypeDef.typeRefs ++ p.methods.toList.flatMap MethodDef.typeRefs

/-- No type that the program names has arguments. -/
def Monomorphic (p : Program) : Prop := ∀ t ∈ p.typeRefs, t.isMonomorphic

theorem mem_typeRefs_of_type {id : TypeId} (hd : p.typeDef? id = some d) (ht : t ∈ d.typeRefs) :
    t ∈ p.typeRefs :=
  mem_append_left _ (mem_flatMap.2 ⟨d, Array.mem_toList_iff.2 (Array.mem_of_getElem? hd), ht⟩)

theorem mem_typeRefs_of_method (hm : p.methodDef? id = some m) (ht : t ∈ m.typeRefs) :
    t ∈ p.typeRefs :=
  mem_append_right _ (mem_flatMap.2 ⟨m, Array.mem_toList_iff.2 (Array.mem_of_getElem? hm), ht⟩)

/-- `T` passes from an instantiated type to its base. -/
def Inherits (p : Program) (T : TypeRef → Prop) : Prop :=
  ∀ {id args d b}, T (.named id args) → p.typeDef? id = some d → d.base = some b →
    T (b.substitute args)

namespace Monomorphic

variable (h : p.Monomorphic)
include h

theorem base {id : TypeId} {b : TypeRef} (hd : p.typeDef? id = some d) (hb : d.base = some b) :
    b.isMonomorphic :=
  h b (mem_typeRefs_of_type hd (by simp [TypeDef.typeRefs, hb]))

theorem inherits : p.Inherits (·.isMonomorphic = true) := by
  intro id args d b hargs hd hb
  obtain rfl : args = [] := TypeRef.isMonomorphic_named.1 hargs
  rw [TypeRef.substitute_nil]
  exact h.base hd hb

theorem field {id : TypeId} {f : FieldDef} (hd : p.typeDef? id = some d) (hf : f ∈ d.fields) :
    f.type.isMonomorphic :=
  h f.type (mem_typeRefs_of_type hd (by
    simp only [TypeDef.typeRefs, mem_append, mem_map]
    exact .inr ⟨f, hf, rfl⟩))

theorem param (hm : p.methodDef? id = some m) (ht : t ∈ m.params) : t.isMonomorphic :=
  h t (mem_typeRefs_of_method hm (by simp [MethodDef.typeRefs, ht]))

theorem ret (hm : p.methodDef? id = some m) : m.ret.isMonomorphic :=
  h m.ret (mem_typeRefs_of_method hm (by simp [MethodDef.typeRefs]))

theorem body (hm : p.methodDef? id = some m) (hb : m.body = some b) (ht : t ∈ b.typeRefs) :
    t.isMonomorphic :=
  h t (mem_typeRefs_of_method hm (by simp [MethodDef.typeRefs, hb, ht]))

theorem local_ (hm : p.methodDef? id = some m) (hb : m.body = some b) (ht : t ∈ b.locals) :
    t.isMonomorphic :=
  h.body hm hb (mem_append_left _ ht)

theorem operand {i : Instruction} (hm : p.methodDef? id = some m) (hb : m.body = some b)
    (hi : i ∈ b.code) (ht : t ∈ i.op.typeRefs) : t.isMonomorphic :=
  h.body hm hb (mem_append_right _ (mem_flatMap.2 ⟨i, Array.mem_toList_iff.2 hi, ht⟩))

end Monomorphic

end Program

/-! ## Implementations -/

namespace VirtualSlot

theorem Pattern.search_inherits (hT : p.Inherits T) {s : Pattern} :
    ∀ {bound : Nat} {type : TypeRef}, T type →
      s.search p bound type = some (id, args) → ∃ owner, T (.named owner args)
  | n + 1, .named owner ownerArgs, htype, h => by
    rw [search] at h
    cases hd : p.typeDef? owner with
    | none => simp [hd] at h
    | some d =>
      simp only [hd] at h
      split at h
      · cases h
        exact ⟨owner, htype⟩
      · obtain ⟨base, hbase, h⟩ := Option.bind_eq_some_iff.1 h
        exact search_inherits hT (hT htype hd hbase) h

theorem implementation_inherits (hT : p.Inherits T) {slot : VirtualSlot} {type : TypeRef}
    (htype : T type) (h : slot.implementation p type = .ok (some (id, args))) :
    ∃ owner, T (.named owner args) := by
  unfold implementation at h
  split at h
  · split at h
    · split at h
      · cases h
      · exact Pattern.search_inherits hT htype (Except.ok.inj h)
    · cases h
  · cases h

end VirtualSlot

end DeviceCode
