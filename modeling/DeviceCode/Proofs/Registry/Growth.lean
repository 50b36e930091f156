import DeviceCode.Proofs.CompileError
import DeviceCode.Proofs.Monomorphic

/-!
# Growth of the registry

Compiling only ever adds to the registry. `Registry.Grows n r r'`: all tables of `r` are prefixes of
those of `r'`, except that methods from index `n` on may have changed; `Registry.Extends r r'` is the
case where no method of `r` has changed.

What lowering does to the registry goes through a few updates. `Lowering.Relates` lists them for a
relation between lowering with two ways to compile what is called, with what is known about the types
that come up, and `Lowering.Relates.lowerBody` carries it through a whole body. `Lowering.Allows` is
the case of a property of one computation, whatever the types, and `Lowering.Admits` that of a
relation between states that holds also where a computation fails.
-/

namespace DeviceCode

open Lowering

open Program

open List

variable {p : Program} {name : String} {params : List TypeRef} {m : MethodRef} {r : ResolvedMethod}
  {T : TypeRef → Prop} {n index : Nat} {s r' : Registry} {item : Instruction × Nat} {f : FieldRef}

/-! ## Resolved methods -/

theorem Program.declaredMethod_some {d : TypeDef} {id : MethodId} {m : MethodDef}
    (h : p.declaredMethod d name params = some (id, m)) :
    p.methodDef? id = some m ∧ m.name = name ∧ m.params = params := by
  obtain ⟨id', -, h⟩ := exists_of_findSome?_eq_some h
  split at h
  · rename_i m' hm
    split at h
    · rename_i hn
      cases h
      simp only [Bool.and_eq_true, beq_iff_eq] at hn
      exact ⟨hm, hn⟩
    · cases h
  · cases h

theorem Program.findOverload_some :
    ∀ {bound : Nat} {owner : TypeRef} {r : ResolvedMethod},
      p.findOverload name params bound owner = some r →
      p.methodDef? r.id = some r.method ∧ r.method.name = name ∧ r.method.params = params
  | 0, _, _, h => by simp [findOverload] at h
  | n + 1, owner, r, h => by
    cases owner with
    | named id args =>
      simp only [findOverload, Option.bind_eq_bind, Option.bind_eq_some_iff] at h
      obtain ⟨d, -, h⟩ := h
      split at h
      · rename_i mid m hm
        cases h
        exact declaredMethod_some hm
      · obtain ⟨b, -, h⟩ := Option.bind_eq_some_iff.1 h
        exact findOverload_some h
    | _ => simp [findOverload] at h

/-- The method that an operand resolves to is the one with the resolved id, and it has the name and
the parameters of the operand. -/
theorem Program.resolveMethod_ok (h : p.resolveMethod m = .ok r) :
    p.methodDef? r.id = some r.method ∧ r.method.name = m.name ∧ r.method.params = m.params := by
  unfold resolveMethod at h
  split at h
  · rename_i r' hr
    cases h
    exact findOverload_some hr
  · cases h

/-- The method is found on a type that the search comes to from the owner through the bases. -/
theorem Program.findOverload_inherits (hT : p.Inherits T) :
    ∀ {bound : Nat} {owner : TypeRef} {r : ResolvedMethod},
      p.findOverload name params bound owner = some r → T owner → ∃ id, T (.named id r.declaringArgs)
  | 0, _, _, h, _ => by simp [findOverload] at h
  | n + 1, owner, r, h, ho => by
    cases owner with
    | named id args =>
      simp only [findOverload, Option.bind_eq_bind, Option.bind_eq_some_iff] at h
      obtain ⟨d, hd, h⟩ := h
      split at h
      · cases h
        exact ⟨id, ho⟩
      · obtain ⟨b, hb, h⟩ := Option.bind_eq_some_iff.1 h
        exact findOverload_inherits hT h (hT ho hd hb)
    | _ => simp [findOverload] at h

theorem Program.resolveMethod_inherits (hT : p.Inherits T) (h : p.resolveMethod m = .ok r)
    (hm : T m.owner) : ∃ id, T (.named id r.declaringArgs) := by
  unfold resolveMethod at h
  split at h
  · rename_i r' hr
    cases h
    exact findOverload_inherits hT hr hm
  · cases h

theorem Program.resolveMethod_owner (h : p.resolveMethod m = .ok r) :
    ∃ id args d, m.owner = .named id args ∧ p.typeDef? id = some d := by
  unfold resolveMethod at h
  split at h
  · rename_i r' hr
    cases howner : m.owner with
    | named id args =>
      rw [howner] at hr
      obtain ⟨d, hd, -⟩ := Option.bind_eq_some_iff.1 hr
      exact ⟨id, args, d, rfl, hd⟩
    | _ =>
      rw [howner] at hr
      simp [findOverload] at hr
  · cases h

/-! ## Resolved fields -/

theorem Program.findField_some : ∀ {bound : Nat} {owner : TypeRef}
    {r : ResolvedField}, p.findField name bound owner = some r →
    p.typeDef? r.declaringId = some r.declaring ∧
      r.declaring.fields.find? (·.name == name) = some r.field
  | 0, _, _, h => by simp [findField] at h
  | n + 1, owner, r, h => by
    cases owner with
    | named id args =>
      simp only [findField, Option.bind_eq_bind, Option.bind_eq_some_iff] at h
      obtain ⟨d, hd, h⟩ := h
      split at h
      · rename_i f hf
        cases h
        exact ⟨hd, hf⟩
      · obtain ⟨b, -, h⟩ := Option.bind_eq_some_iff.1 h
        exact findField_some h
    | _ => simp [findField] at h

theorem Program.findField_inherits (hT : p.Inherits T) :
    ∀ {bound : Nat} {owner : TypeRef} {r : ResolvedField},
      p.findField name bound owner = some r → T owner → T r.declaringType
  | 0, _, _, h, _ => by simp [findField] at h
  | n + 1, owner, r, h, ho => by
    cases owner with
    | named id args =>
      simp only [findField, Option.bind_eq_bind, Option.bind_eq_some_iff] at h
      obtain ⟨d, hd, h⟩ := h
      split at h
      · cases h
        exact ho
      · obtain ⟨b, hb, h⟩ := Option.bind_eq_some_iff.1 h
        exact findField_inherits hT h (hT ho hd hb)
    | _ => simp [findField] at h

/-- The field that an operand resolves to is one of a known type, to which the search comes from the
owner through the bases. -/
theorem Program.resolveField_inherits (hT : p.Inherits T) {r : ResolvedField}
    (h : p.resolveField f = .ok r) (hf : T f.owner) :
    T r.declaringType ∧ p.typeDef? r.declaringId = some r.declaring ∧
      r.field ∈ r.declaring.fields := by
  unfold resolveField at h
  split at h
  · rename_i r' hr
    cases h
    obtain ⟨hd, hfield⟩ := findField_some hr
    exact ⟨findField_inherits hT hr hf, hd, mem_of_find?_eq_some hfield⟩
  · cases h

/-! ## The relation -/

namespace Registry

/-- A slot without the classes that are bound to it. -/
def unbound (s : VirtualSlot) : VirtualSlot := { s with implementors := [] }

/-- Every table of `r'` starts with that of `r`, but the methods from index `n` on may differ, and
so may the classes that are bound to a slot. -/
structure Grows (n : Nat) (r r' : Registry) : Prop where
  methods : ∀ i < n, r'.methods[i]? = r.methods[i]?
  size : r.methods.size ≤ r'.methods.size
  fields : r.fields.toList <+: r'.fields.toList
  classes : r.classes.toList <+: r'.classes.toList
  layoutRoots : r.layoutRoots.toList <+: r'.layoutRoots.toList
  slots : r.slots.toList.map unbound <+: r'.slots.toList.map unbound
  fixups : r.fixups.toList <+: r'.fixups.toList

/-- All that was in `r` is in `r'`, and no method has changed. -/
def Extends (r r' : Registry) : Prop := Grows r.methods.size r r'

theorem Grows.refl (n : Nat) (r : Registry) : Grows n r r :=
  ⟨fun _ _ => rfl, Nat.le_refl _, prefix_rfl, prefix_rfl, prefix_rfl,
    prefix_rfl, prefix_rfl⟩

theorem Grows.trans {r t : Registry} (h₁ : Grows n r s) (h₂ : Grows n s t) :
    Grows n r t where
  methods i hi := (h₂.methods i hi).trans (h₁.methods i hi)
  size := Nat.le_trans h₁.size h₂.size
  fields := h₁.fields.trans h₂.fields
  classes := h₁.classes.trans h₂.classes
  layoutRoots := h₁.layoutRoots.trans h₂.layoutRoots
  slots := h₁.slots.trans h₂.slots
  fixups := h₁.fixups.trans h₂.fixups

theorem Grows.mono {m : Nat} {r : Registry} (h : Grows n r s) (hm : m ≤ n) : Grows m r s :=
  { h with methods := fun i hi => h.methods i (by omega) }

theorem growth_extends : Growth Extends where
  refl r := Grows.refl _ r
  trans h₁ h₂ := h₁.trans (h₂.mono h₁.size)

theorem Extends.getElem? {r : Registry} (h : Extends r r') {i : Nat} {m : CompiledMethod}
    (hm : r.methods[i]? = some m) : r'.methods[i]? = some m := by
  rw [h.methods i (Array.getElem?_eq_some_iff.1 hm).1, hm]

theorem Extends.grows {r : Registry} (h : Extends r r') (hn : n ≤ r.methods.size) :
    Grows n r r' := Grows.mono h hn

/-! ## Single updates -/

theorem extends_recordField (f : FieldUse) (r : Registry) : Extends r (r.recordField f) := by
  unfold recordField
  split
  · exact growth_extends.refl r
  · exact { Grows.refl _ r with fields := by simp }

theorem extends_discoverClass (p : Program) (t : TypeRef) (r : Registry) :
    Extends r (r.discoverClass p t) := by
  unfold discoverClass
  dsimp only
  split
  · exact growth_extends.refl r
  · exact { Grows.refl _ r with classes := by simp }

theorem extends_addLayoutRoot (t : TypeRef) (r : Registry) : Extends r (r.addLayoutRoot t) := by
  unfold addLayoutRoot
  split
  · exact growth_extends.refl r
  · exact { Grows.refl _ r with layoutRoots := by simp }

theorem extends_fixups (fs : List Fixup) (r : Registry) :
    Extends r { r with fixups := r.fixups ++ fs } :=
  { Grows.refl _ r with fixups := by simp }

theorem extends_warnings (w : Array Diagnostic) (r : Registry) :
    Extends r { r with warnings := w } := { Grows.refl r.methods.size r with }

theorem extends_push (m : CompiledMethod) (r : Registry) :
    Extends r { r with methods := r.methods.push m } :=
  { Grows.refl r.methods.size r with
    methods := fun i hi => by
      rw [Array.getElem?_push_lt hi, Array.getElem?_eq_getElem hi]
    size := by simp }

theorem internSlot_cases (slot : VirtualSlot) (r : Registry) :
    (∃ i, r.slotIndex? slot.key = some i ∧ internSlot slot r = .ok i r) ∨
      (r.slotIndex? slot.key = none ∧
        internSlot slot r = .ok r.slots.size { r with slots := r.slots.push slot }) := by
  cases h : r.slotIndex? slot.key with
  | some i =>
    refine .inl ⟨i, rfl, ?_⟩
    rw [internSlot, state_bind_ok]
    exact ⟨r, r, by simp, by simp [h]⟩
  | none =>
    refine .inr ⟨rfl, ?_⟩
    rw [internSlot, state_bind_ok]
    refine ⟨r, r, by simp, ?_⟩
    simp only [h]
    rw [state_bind_ok]
    exact ⟨⟨⟩, { r with slots := r.slots.push slot }, by simp, by simp⟩

theorem keeps_internSlot (slot : VirtualSlot) : Keeps Extends (internSlot slot) := by
  intro r
  obtain ⟨i, -, h⟩ | ⟨-, h⟩ := internSlot_cases slot r
  · rw [stateAfter_ok h]; exact growth_extends.refl r
  · rw [stateAfter_ok h]
    exact { Grows.refl _ r with slots := by simp }

theorem grows_modifyMethod (h : n ≤ index) (f : CompiledMethod → CompiledMethod) (r : Registry) :
    Grows n r (r.modifyMethod index f) :=
  { Grows.refl n r with
    methods := fun i hi => by
      simp only [modifyMethod]
      rw [Array.getElem?_modify, if_neg (by omega)]
    size := by simp [modifyMethod] }

section
variable {R : Registry → Registry → Prop} (g : Growth R)
include g

/-- Blocking the callers of blocked methods keeps a relation that looking at one method keeps. -/
theorem blockCallersWithin_of_blockCaller (caller : ∀ state i, R state.1 (blockCaller state i).1) :
    ∀ (bound : Nat) (r : Registry), R r (blockCallersWithin bound r)
  | 0, r => g.refl r
  | n + 1, r => by
    have round : ∀ (is : List Nat) (state : Registry × Bool),
        R state.1 (is.foldl blockCaller state).1 := by
      intro is
      induction is with
      | nil => exact fun state => g.refl _
      | cons i is ih => exact fun state => g.trans (caller state i) (ih _)
    have h := round (range r.methods.size) (r, false)
    rw [blockCallersWithin]
    split
    · rename_i r' heq
      rw [heq] at h
      exact g.trans h (blockCallersWithin_of_blockCaller caller n r')
    · rename_i r' heq
      rw [heq] at h
      exact h

variable (block : ∀ index reason r, R r (r.block index reason))
include block

theorem growth_blockCaller (state : Registry × Bool) (index : Nat) :
    R state.1 (blockCaller state index).1 := by
  unfold blockCaller
  dsimp only
  split
  · exact g.refl _
  · split
    · exact g.refl _
    · split
      · exact g.refl _
      · exact block _ _ _

/-- Blocking the callers of blocked methods keeps a relation that blocking one method keeps. -/
theorem growth_blockCallersWithin (bound : Nat) (r : Registry) : R r (blockCallersWithin bound r) :=
  blockCallersWithin_of_blockCaller g (growth_blockCaller g block) bound r

end

/-- The slot is known by the signature of its method, for the arguments of its owner. -/
structure NamedSlot (p : Program) (s : VirtualSlot) (d : MethodDef) (args : List TypeRef) : Prop where
  method : p.methodDef? s.method = some d
  owner : s.owner = .named d.declaring args
  key : s.key = d.signature p args

end Registry

/-! ## Lowering -/

/-- The use that an instruction makes of the field that its operand resolves to. -/
def ResolvedField.use (p : Program) (isStaticOp : Bool) (f : ResolvedField) : FieldUse where
  key := p.fullName f.declaringType ++ "::" ++ f.field.name
  name := f.field.name
  declaring := f.declaringType
  type := f.type
  isStatic := isStaticOp || f.field.isStatic
  host := Lowering.isHostSurface p 65 f.declaringId

/-- The use that an instruction makes of a field, in code with those type arguments. -/
def Op.fieldUse? (p : Program) (typeArgs : List TypeRef) : Op → Option FieldUse
  | .field isStaticOp _ f =>
    (p.resolveField { f with owner := f.owner.substitute typeArgs }).toOption.map (·.use p isStaticOp)
  | _ => none

/-- `T` holds of the types that come up when operations of the set are lowered: of those that they
name, of the types that declare what they resolve to, and of the fields of these. -/
structure Lowering.Mentions (l : Lowering) (S : Op → Prop) (T : TypeRef → Prop) : Prop where
  operand : ∀ {op t}, S op → t ∈ op.typeRefs → T (t.substitute l.typeArgs)
  declaring : ∀ {id id' args}, T (.named id args) → T (.named id' args)
  inherits : l.program.Inherits T
  field : ∀ {id args d f}, T (.named id args) → l.program.typeDef? id = some d → f ∈ d.fields →
    T (f.type.substitute args)

/-- What compiles the methods that a body calls. -/
abbrev Compiler : Type := MethodId → List TypeRef → RegistryM Nat

namespace Compiler

variable (compile : Compiler)

abbrev Keeps (R : Registry → Registry → Prop) : Prop := ∀ id args, DeviceCode.Keeps R (compile id args)

abbrev Leads (R : Registry → Registry → Prop) : Prop := ∀ id args, DeviceCode.Leads R (compile id args)

/-- It gives indices of methods. -/
abbrev Bounded : Prop := ∀ id args r k r', compile id args r = .ok k r' → k < r'.methods.size

end Compiler

/-- The same body, with another way to compile what it calls. -/
def Lowering.via (l : Lowering) (compile : Compiler) : Lowering :=
  { l with compile }

/-- The relation holds between every update of the registry that lowering makes for operations of the
set and the same update, and between the two ways to compile a method. -/
structure Lowering.Relates (l : Lowering) (other : Compiler)
    (S : Op → Prop) (T : TypeRef → Prop) (E : CompileError → Prop)
    (Φ : {α : Type} → RegistryM α → RegistryM α → Prop) : Prop where
  parallel : Parallel E Φ
  mentions : l.Mentions S T
  compile : ∀ {t args} id, T (.named t args) → Φ (l.compile id args) (other id args)
  field : ∀ {op f}, S op → op.fieldUse? l.program l.typeArgs = some f → T f.declaring → T f.type →
    Doubly Φ (modify (Registry.recordField f))
  discover : ∀ {id args d}, T (.named id args) → l.program.typeDef? id = some d →
    Doubly Φ (modify (Registry.discoverClass l.program (.named id args)))
  root : ∀ {t}, T t → Doubly Φ (modify (Registry.addLayoutRoot t))
  slot : ∀ {s d args}, Registry.NamedSlot l.program s d args → s.implementors = [] → T s.owner →
    Doubly Φ (Registry.internSlot s)
  fixups : ∀ {index op lowered r r'}, S op → l.lowerOp index op r = .ok lowered r' →
    Doubly Φ (modify fun r : Registry => { r with fixups := r.fixups ++ l.fixupsOf index lowered.pieces })

namespace Lowering.Relates

variable {l : Lowering} {other : Compiler} {S : Op → Prop}
  {E : CompileError → Prop} [CompileError.HoldsOrdinary E]
  {Φ : {α : Type} → RegistryM α → RegistryM α → Prop} (h : l.Relates other S T E Φ) {type : TypeRef}
include h

theorem resolveCall (hm : T m.owner) : Φ (l.resolveCall m) ((l.via other).resolveCall m) := by
  unfold Lowering.resolveCall
  dsimp only [program, via]
  split
  · exact h.parallel.pure _
  · refine h.parallel.ofExcept_bind (decides_resolveMethod _ _) fun resolved hresolved => ?_
    obtain ⟨t, ht⟩ := resolveMethod_inherits h.mentions.inherits hresolved hm
    have compile := h.parallel.bind (h.compile resolved.id ht) fun index =>
      h.parallel.pure (CallTarget.user index)
    repeat' split
    all_goals first
      | exact h.parallel.throw_bind (CompileError.ordinary rfl) _ _
      | exact compile

theorem resolveVirtualCall (hm : T m.owner) :
    Φ (l.resolveVirtualCall m) ((l.via other).resolveVirtualCall m) := by
  have direct := h.resolveCall hm
  unfold Lowering.resolveVirtualCall
  dsimp only [program, via] at direct ⊢
  split
  · exact h.parallel.pure _
  · refine h.parallel.ofExcept_bind (decides_resolveMethod _ _) fun resolved hresolved => ?_
    obtain ⟨t, ht⟩ := resolveMethod_inherits h.mentions.inherits hresolved hm
    have named : Registry.NamedSlot l.program
        { key := resolved.method.signature l.program resolved.declaringArgs
          method := resolved.id
          owner := .named resolved.method.declaring resolved.declaringArgs
          params := resolved.method.params.length } resolved.method resolved.declaringArgs :=
      ⟨(resolveMethod_ok hresolved).1, rfl, rfl⟩
    have slot := h.parallel.bind (h.slot named rfl (h.mentions.declaring ht)) fun i =>
      h.parallel.pure (CallTarget.slot i)
    repeat' split
    all_goals first
      | exact direct
      | exact slot

theorem checkIndex (target : CallTarget) :
    Doubly Φ (Lowering.checkIndex target) := by
  unfold Lowering.checkIndex
  split
  · split
    · exact h.parallel.pure _
    · exact h.parallel.throw (CompileError.ordinary rfl)
  · exact h.parallel.pure _

omit [CompileError.HoldsOrdinary E] in
theorem callPieces (target : CallTarget) :
    Doubly Φ (Lowering.callPieces target) := by
  unfold Lowering.callPieces
  split
  · exact h.parallel.pure _
  · exact h.parallel.pure _
  · exact h.parallel.bind h.parallel.get fun _ => h.parallel.pure _

theorem lowerCall {isVirtual : Bool} (hop : S (.call isVirtual m)) :
    Φ (l.lowerCall isVirtual m) ((l.via other).lowerCall isVirtual m) := by
  have hm : T (l.instantiate m).owner := h.mentions.operand hop mem_cons_self
  unfold Lowering.lowerCall
  split
  case' isTrue => refine h.parallel.bind (h.resolveVirtualCall hm) fun target => ?_
  case' isFalse => refine h.parallel.bind (h.resolveCall hm) fun target => ?_
  all_goals
    refine h.parallel.bind (h.checkIndex _) fun _ => ?_
    refine h.parallel.bind (h.callPieces _) fun _ => ?_
    exact h.parallel.bind (h.parallel.ofExcept (decides_result _ _)) fun _ => h.parallel.pure _

theorem lowerMethodAddress (hop : S (.methodAddress m)) :
    Φ (l.lowerMethodAddress m) ((l.via other).lowerMethodAddress m) := by
  have hm : T (l.instantiate m).owner := h.mentions.operand hop mem_cons_self
  refine h.parallel.bind (h.resolveCall hm) fun target => ?_
  refine h.parallel.bind (h.checkIndex _) fun _ => ?_
  exact h.parallel.bind (h.callPieces _) fun _ => h.parallel.pure _

omit [CompileError.HoldsOrdinary E] in
theorem classPiece (ht : T type) :
    Φ (l.classPiece type) ((l.via other).classPiece type) := by
  unfold Lowering.classPiece
  dsimp only [program, via]
  have root := h.parallel.bind (h.root ht) fun _ =>
    h.parallel.pure (Piece.link (.classId (l.program.fullName type)))
  have none := h.parallel.pure (Piece.word Opcode.placeholder)
  repeat' split
  all_goals first
    | exact root
    | exact none

omit [CompileError.HoldsOrdinary E] in
theorem lowerClassOp (opcode : Opcode) (ht : T (type.substitute l.typeArgs)) :
    Φ (l.lowerClassOp opcode type) ((l.via other).lowerClassOp opcode type) :=
  h.parallel.bind (h.classPiece ht) fun _ => h.parallel.pure _

theorem lowerDescriptorOp (opcode : Opcode) (type : TypeRef) :
    Φ (l.lowerDescriptorOp opcode type) ((l.via other).lowerDescriptorOp opcode type) :=
  h.parallel.bind (h.parallel.ofExcept (decides_descriptorKey _ _)) fun _ => h.parallel.pure _

omit h in
theorem resolveMethod_of_user {r : Registry} (hcall : l.resolveCall m r = .ok (.user index) r') :
    ∃ resolved, l.program.resolveMethod m = .ok resolved := by
  unfold Lowering.resolveCall at hcall
  dsimp only at hcall
  cases hb : l.context.builtins.lookup? (m.signature l.program) with
  | some id =>
    simp only [hb] at hcall
    obtain ⟨hcall, -⟩ := state_pure_ok.1 hcall
    cases hcall
  | none =>
    simp only [hb] at hcall
    obtain ⟨resolved, _, hresolved, -⟩ := state_bind_ok.1 hcall
    exact ⟨resolved, (state_ofExcept_ok.1 hresolved).1⟩

theorem lowerNewObject {constructor : MethodRef} (hop : S (.newObject constructor)) :
    Φ (l.lowerNewObject constructor) ((l.via other).lowerNewObject constructor) := by
  have hm : T (l.instantiate constructor).owner := h.mentions.operand hop mem_cons_self
  refine h.parallel.bind_of (h.resolveCall hm) fun r target r' hcall => ?_
  refine h.parallel.bind (h.checkIndex _) fun _ => ?_
  split
  · obtain ⟨resolved, hresolved⟩ := resolveMethod_of_user hcall
    obtain ⟨id, args, d, howner, hd⟩ := resolveMethod_owner hresolved
    have discover := h.discover (howner ▸ hm) hd
    rw [← howner] at discover
    refine h.parallel.bind discover fun _ => ?_
    refine h.parallel.bind (h.classPiece hm) fun _ => ?_
    refine h.parallel.bind (h.callPieces _) fun _ => ?_
    exact h.parallel.bind (h.parallel.ofExcept (decides_storage _ _)) fun _ => h.parallel.pure _
  · refine h.parallel.bind (h.parallel.pure _) fun _ => ?_
    refine h.parallel.bind (h.callPieces _) fun _ => ?_
    exact h.parallel.bind (h.parallel.ofExcept (decides_storage _ _)) fun _ => h.parallel.pure _

theorem lowerField {isStatic : Bool} {access : Access} (hop : S (.field isStatic access f)) :
    Φ (l.lowerField isStatic access f) ((l.via other).lowerField isStatic access f) := by
  have howner : T (f.owner.substitute l.typeArgs) := h.mentions.operand hop mem_cons_self
  refine h.parallel.ofExcept_bind (decides_resolveField _ _) fun resolved hresolved => ?_
  have huse : (Op.field isStatic access f).fieldUse? l.program l.typeArgs =
      some (resolved.use l.program isStatic) := by
    rw [Op.fieldUse?, hresolved]
    rfl
  obtain ⟨hdeclaring, hd, hfield⟩ :=
    resolveField_inherits h.mentions.inherits hresolved howner
  have htype : T resolved.type := h.mentions.field hdeclaring hd hfield
  refine h.parallel.bind (h.parallel.ofExcept (decides_storage _ _)) fun storage => ?_
  refine h.parallel.bind (h.field hop huse hdeclaring htype) fun _ => ?_
  refine Parallel.ite ?_ ?_
  · exact h.parallel.bind (h.parallel.pure _) fun _ => h.parallel.pure _
  · exact h.parallel.bind (h.discover hdeclaring hd) fun _ => h.parallel.pure _

theorem lowerOp (index : Nat) {op : Op} (hop : S op) :
    Φ (l.lowerOp index op) ((l.via other).lowerOp index op) := by
  have hoperand := fun {t} => h.mentions.operand (t := t) hop
  unfold Lowering.lowerOp
  split
  · exact h.lowerMethodAddress hop
  · exact h.lowerClassOp _ (hoperand mem_cons_self)
  · exact h.lowerClassOp _ (hoperand mem_cons_self)
  · exact h.lowerNewObject hop
  · exact h.lowerDescriptorOp _ _
  · exact h.lowerDescriptorOp _ _
  · exact h.lowerDescriptorOp _ _
  · exact h.lowerDescriptorOp _ _
  · exact h.lowerField hop
  · exact h.lowerCall hop
  · exact h.parallel.ofExcept (l.decides_lowerPlain index _)

theorem lowerNext (body : LoweredBody) (hop : S item.1.op) :
    Φ (l.lowerNext body item) ((l.via other).lowerNext body item) := by
  refine h.parallel.bind_of (h.lowerOp _ hop) fun r lowered r' hlowered => ?_
  exact h.parallel.bind (h.fixups hop hlowered) fun _ => h.parallel.pure _

/-- **Lowering a body** in two ways stands in a relation that the single updates stand in. -/
theorem lowerBody (hops : ∀ i ∈ l.code, S i.op) : Φ l.lowerBody (l.via other).lowerBody :=
  h.parallel.foldlM (fun body item hitem => h.lowerNext body
    (hops item.1 (Array.mem_toList_iff.1 (fst_mem_of_mem_zipIdx hitem)))) _

end Lowering.Relates

/-- The property holds of every update of the registry that lowering makes for operations of the
set. -/
structure Lowering.Allows (l : Lowering) (S : Op → Prop) (Φ : {α : Type} → RegistryM α → Prop) :
    Prop where
  closed : Closed Φ
  compile : ∀ id args, Φ (l.compile id args)
  field : ∀ {op f}, S op → op.fieldUse? l.program l.typeArgs = some f →
    Φ (modify (Registry.recordField f))
  discover : ∀ t, Φ (modify (Registry.discoverClass l.program t))
  root : ∀ t, Φ (modify (Registry.addLayoutRoot t))
  slot : ∀ {s d args}, Registry.NamedSlot l.program s d args → s.implementors = [] →
    Φ (Registry.internSlot s)
  fixups : ∀ fs : List Fixup, Φ (modify fun r : Registry => { r with fixups := r.fixups ++ fs })

namespace Lowering.Allows

variable {l : Lowering} {S : Op → Prop} {Φ : {α : Type} → RegistryM α → Prop} (h : l.Allows S Φ)
include h

theorem relates : l.Relates l.compile S (fun _ => True) CompileError.Decided fun x _ => Φ x where
  parallel := h.closed.parallel _
  mentions := ⟨fun _ _ => trivial, fun _ => trivial, fun _ _ _ => trivial, fun _ _ _ => trivial⟩
  compile id _ := h.compile id _
  field hop hf _ _ := h.field hop hf
  discover _ _ := h.discover _
  root _ := h.root _
  slot hs hempty _ := h.slot hs hempty
  fixups _ _ := h.fixups _

theorem lowerNext (body : LoweredBody) (hop : S item.1.op) :
    Φ (l.lowerNext body item) := h.relates.lowerNext body hop

/-- **Lowering a body** has a property that its single updates have. -/
theorem lowerBody (hops : ∀ i ∈ l.code, S i.op) : Φ l.lowerBody := h.relates.lowerBody hops

end Lowering.Allows

/-- The relation holds along every update of the registry that lowering makes. -/
structure Lowering.Admits (l : Lowering) (R : Registry → Registry → Prop) : Prop where
  growth : Growth R
  compile : Compiler.Keeps l.compile R
  field : ∀ f r, R r (r.recordField f)
  discover : ∀ t r, R r (r.discoverClass l.program t)
  root : ∀ t r, R r (r.addLayoutRoot t)
  slot : ∀ {s d args}, Registry.NamedSlot l.program s d args → s.implementors = [] →
    Keeps R (Registry.internSlot s)
  fixups : ∀ (fs : List Fixup) r, R r { r with fixups := r.fixups ++ fs }

namespace Lowering.Admits

variable {l : Lowering} {R : Registry → Registry → Prop} (h : l.Admits R)
include h

theorem allows : l.Allows (fun _ => True) fun x => Keeps R x where
  closed := h.growth.closed_keeps
  compile := h.compile
  field _ _ := Growth.modify (h.field _)
  discover t := Growth.modify (h.discover t)
  root t := Growth.modify (h.root t)
  slot := h.slot
  fixups fs := Growth.modify (h.fixups fs)

theorem lowerNext (body : LoweredBody) (item : Instruction × Nat) :
    Keeps R (l.lowerNext body item) := h.allows.lowerNext body trivial

/-- **Lowering a body** keeps a relation that its single updates keep. -/
theorem lowerBody : Keeps R l.lowerBody := h.allows.lowerBody fun _ _ => trivial

end Lowering.Admits

end DeviceCode
