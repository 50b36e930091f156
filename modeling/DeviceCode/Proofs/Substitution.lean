import DeviceCode.Program.Resolve
import Mathlib.Logic.Relation

/-!
# Substitution

Putting arguments in twice is putting in arguments that were replaced themselves, as long as the type has
no parameter beyond the first arguments (`TypeRef.substitute_substitute`). So the walk of
`Program.findField` up the bases of an instance runs beside the walk from the open type, whose arguments
are its own parameters: at each base the arguments of the one are those of the other with the instance's
put in. Main statement: `substitution_composes`.
-/

namespace DeviceCode

namespace TypeRef

mutual

/-- All parameters are among the first `n`. -/
def paramsBelow (n : Nat) : TypeRef → Bool
  | param i => i.toNat < n
  | array t | byRef t | pointer t => t.paramsBelow n
  | named _ args => allBelow n args
  | _ => true

def allBelow (n : Nat) : List TypeRef → Bool
  | [] => true
  | t :: ts => t.paramsBelow n && allBelow n ts

end

mutual

theorem substitute_substitute {a : List TypeRef} (b : List TypeRef) :
    ∀ {t : TypeRef}, t.paramsBelow a.length →
      (t.substitute a).substitute b = t.substitute (a.map (·.substitute b))
  | void, _ | primitive _, _ | string, _ | object, _ => by simp only [substitute]
  | array t, h | byRef t, h | pointer t, h => by
    rw [paramsBelow] at h
    simp only [substitute, substitute_substitute b h]
  | named id args, h => by
    rw [paramsBelow] at h
    simp only [substitute, substituteAll_substituteAll b h]
  | param i, h => by
    rw [paramsBelow, decide_eq_true_eq] at h
    simp only [substitute, List.getD_eq_getElem?_getD, List.getElem?_map,
      List.getElem?_eq_getElem h, Option.map_some, Option.getD_some]

theorem substituteAll_substituteAll {a : List TypeRef} (b : List TypeRef) :
    ∀ {ts : List TypeRef}, allBelow a.length ts →
      substituteAll b (substituteAll a ts) = substituteAll (a.map (·.substitute b)) ts
  | [], _ => by simp only [substituteAll]
  | t :: ts, h => by
    rw [allBelow, Bool.and_eq_true] at h
    simp only [substituteAll, substitute_substitute b h.1, substituteAll_substituteAll b h.2]

end

@[simp] theorem length_params (n : UInt16) : (params n).length = n.toNat := by simp [params]

/-- The arguments of an instance, put in for the parameters of the open type. -/
theorem map_substitute_params {n : UInt16} {args : List TypeRef} (h : args.length = n.toNat) :
    (params n).map (·.substitute args) = args := by
  apply List.ext_getElem
  · rw [List.length_map, length_params, h]
  · intro i hi hi'
    have hsmall : i < 65536 := Nat.lt_trans (h ▸ hi') n.toNat_lt
    have hposition : i.toUInt16.toNat = i := by
      rw [UInt16.toNat_ofNat', Nat.mod_eq_of_lt hsmall]
    simp [params, List.getElem_map, List.getElem_range, substitute, hposition,
      List.getD_eq_getElem?_getD, List.getElem?_eq_getElem hi', Option.getD_some]

end TypeRef

namespace Program

variable {p : Program} {id : TypeId} {d : TypeDef} {name : String}

/-- The reference gives its type as many arguments as that declares. A parameter refers to no type. -/
def Supplies (p : Program) : TypeRef → Prop
  | .named id args => ∀ d, p.typeDef? id = some d → args.length = d.genericParams.toNat
  | .param _ => False
  | _ => True

/-- The base and the types of the fields use no parameters but the type's own, and the base gets all of
its arguments. -/
structure SelfContained (p : Program) (d : TypeDef) : Prop where
  base : ∀ b, d.base = some b → b.paramsBelow d.genericParams.toNat ∧ p.Supplies b
  fields : ∀ f ∈ d.fields, f.type.paramsBelow d.genericParams.toNat

/-- The second type is the base of the first. -/
def HasBase (p : Program) (id base : TypeId) : Prop :=
  ∃ d args, p.typeDef? id = some d ∧ d.base = some (.named base args)

/-- All types from this one up through its bases are self-contained. -/
def GenericChain (p : Program) (id : TypeId) : Prop :=
  ∀ base, Relation.ReflTransGen p.HasBase id base → ∀ d, p.typeDef? base = some d → p.SelfContained d

theorem GenericChain.head (h : p.GenericChain id) (hd : p.typeDef? id = some d) :
    p.SelfContained d := h id .refl d hd

theorem GenericChain.tail (h : p.GenericChain id) {base : TypeId} (hbase : p.HasBase id base) :
    p.GenericChain base := fun b hb => h b (hb.head hbase)

/-- What the walk from an instance finds, the walk from the open type finds as well, with the arguments
not put in yet. -/
structure Opens (args : List TypeRef) (r r' : ResolvedField) : Prop where
  id : r.declaringId = r'.declaringId
  args : r.declaringArgs = r'.declaringArgs.map (·.substitute args)
  field : r.field = r'.field
  below : r'.field.type.paramsBelow r'.declaringArgs.length

/-- The walk up the bases, by induction on its bound: the arguments of the instance are at every base those
of the open type with `args` put in. -/
theorem findField_opens (args : List TypeRef) {r : ResolvedField} :
    ∀ {bound : Nat} {id : TypeId} {d : TypeDef} {own : List TypeRef}, p.GenericChain id →
      p.typeDef? id = some d → own.length = d.genericParams.toNat →
      p.findField name bound (.named id (own.map (·.substitute args))) = some r →
        ∃ r', p.findField name bound (.named id own) = some r' ∧ Opens args r r'
  | 0, _, _, _, _, _, _, h => by cases h
  | bound + 1, id, d, own, hchain, hd, hlength, h => by
    have hself := hchain.head hd
    rw [findField, hd] at h ⊢
    simp only [Option.bind_eq_bind, Option.bind_some] at h ⊢
    cases hfound : d.fields.find? (·.name == name) with
    | some f =>
      rw [hfound] at h
      cases h
      exact ⟨_, rfl, rfl, rfl, rfl, hlength ▸ hself.fields f (List.mem_of_find?_eq_some hfound)⟩
    | none =>
      rw [hfound] at h
      obtain ⟨b, hb, h⟩ := Option.bind_eq_some_iff.1 h
      obtain ⟨hbelow, hsupplies⟩ := hself.base b hb
      rw [← TypeRef.substitute_substitute args (hlength ▸ hbelow)] at h
      rw [hb]
      cases b with
      | named base given =>
        simp only [TypeRef.substitute, TypeRef.substituteAll_eq_map] at h
        cases hbase : p.typeDef? base with
        | none =>
          cases bound with
          | zero => cases h
          | succ => rw [findField, hbase] at h; cases h
        | some e =>
          simp only [Option.bind_some, TypeRef.substitute, TypeRef.substituteAll_eq_map]
          exact findField_opens args (hchain.tail ⟨d, given, hd, hb⟩) hbase
            (by rw [List.length_map, hsupplies e hbase]) h
      | param i => exact hsupplies.elim
      | void | primitive _ | string | object | array _ | byRef _ | pointer _ =>
        cases bound <;> cases h

end Program

/-- **Substitution composes.** A type without parameters beyond the first arguments may be instantiated
at once or in two steps. A field that is found through an instance of a generic type is found through the
open type as well, and its declaring type and its type come from there, with the instance's arguments put
in. -/
theorem substitution_composes :
    (∀ (t : TypeRef) (a b : List TypeRef), t.paramsBelow a.length →
      (t.substitute a).substitute b = t.substitute (a.map (·.substitute b))) ∧
    ∀ (p : Program) (id : TypeId) (d : TypeDef) (args : List TypeRef) (name : String)
      (r : ResolvedField), p.GenericChain id → p.typeDef? id = some d →
      args.length = d.genericParams.toNat → p.resolveField ⟨.named id args, name⟩ = .ok r →
        ∃ r', p.resolveField ⟨.named id (TypeRef.params d.genericParams), name⟩ = .ok r' ∧
          r.declaringType = r'.declaringType.substitute args ∧ r.type = r'.type.substitute args := by
  refine ⟨fun t a b h => TypeRef.substitute_substitute b h, ?_⟩
  intro p id d args name r hchain hd hargs h
  unfold Program.resolveField at h ⊢
  cases hfound : p.findField name 65 (.named id args) with
  | none =>
    rw [hfound] at h
    cases h
  | some r₁ =>
    rw [hfound] at h
    cases h
    rw [← TypeRef.map_substitute_params hargs] at hfound
    obtain ⟨r', hr', hopens⟩ := Program.findField_opens args hchain hd (TypeRef.length_params _) hfound
    refine ⟨r', by rw [hr'], ?_, ?_⟩
    · simp [ResolvedField.declaringType, TypeRef.substitute, TypeRef.substituteAll_eq_map,
        hopens.id, hopens.args]
    · rw [ResolvedField.type, ResolvedField.type, hopens.field, hopens.args,
        TypeRef.substitute_substitute args hopens.below]

/-- Three generic types, each the base of the next. -/
def nested : Program where
  types := #[
    { name := "Cell", genericParams := 2, fields := [{ name := "value", type := .array (.param 1) }] },
    { name := "Row", genericParams := 1
      base := some (.named ⟨0⟩ [.primitive .i32, .array (.param 0)]) },
    { name := "Grid", genericParams := 2, base := some (.named ⟨1⟩ [.param 1]) }]

theorem nested_generic (id : TypeId) : nested.GenericChain id := by
  intro base _ d hd
  have hmem : d ∈ nested.types := Array.mem_of_getElem? hd
  simp only [nested, List.mem_toArray, List.mem_cons, List.not_mem_nil, or_false] at hmem
  rcases hmem with rfl | rfl | rfl
  · refine ⟨?_, fun f hf => ?_⟩
    · intro b hb
      cases hb
    · obtain rfl := List.mem_singleton.1 hf
      rfl
  · refine ⟨?_, ?_⟩
    · rintro b ⟨⟩
      exact ⟨rfl, fun e he => by cases he; rfl⟩
    · intro f hf
      cases hf
  · refine ⟨?_, ?_⟩
    · rintro b ⟨⟩
      exact ⟨rfl, fun e he => by cases he; rfl⟩
    · intro f hf
      cases hf

theorem nested_composes :
    ((TypeRef.named ⟨1⟩ [.param 1]).substitute [.object, .param 0]).substitute [.string] =
      .named ⟨1⟩ [.string] ∧
    ∃ r r', nested.resolveField ⟨.named ⟨2⟩ [.string, .primitive .f32], "value"⟩ = .ok r ∧
      nested.resolveField ⟨.named ⟨2⟩ (TypeRef.params 2), "value"⟩ = .ok r' ∧
      r.declaringType = .named ⟨0⟩ [.primitive .i32, .array (.primitive .f32)] ∧
      r.declaringType = r'.declaringType.substitute [.string, .primitive .f32] ∧
      r.type = r'.type.substitute [.string, .primitive .f32] := by
  obtain ⟨r', hr', htypes⟩ := substitution_composes.2 nested ⟨2⟩ _ [.string, .primitive .f32] "value" _
    (nested_generic _) rfl rfl rfl
  exact ⟨substitution_composes.1 _ [.object, .param 0] [.string] rfl, _, r', rfl, hr', rfl, htypes⟩

end DeviceCode
