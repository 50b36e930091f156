import DeviceCode.Proofs.Nesting
import DeviceCode.Proofs.Registry.Compile
import DeviceCode.Proofs.TypeTables

/-!
# Where the link asks for native code

Of all that a build does, only `Registry.checkNative` fails because a method must run as native code.
`Spares x` says that `x` never fails for that reason; it is shown part by part of everything else that
the link does, down to the methods that it compiles and the classes that it lays out. Main statement:
`link_native_iff`, the link asks for native code exactly if that check does on the registry that
binding leaves.
-/

namespace DeviceCode

/-- The computation never fails for want of native code. -/
abbrev Spares {σ α : Type} (x : EStateM CompileError σ α) : Prop :=
  Proceeds CompileError.NotNative (fun _ => True) x

theorem parallel_spares {σ : Type} : Parallel (σ := σ) CompileError.NotNative fun x y =>
    Agree CompileError.NotNative (fun _ => True) (fun _ => 0) 1 x y := parallel_proceeds

theorem spares_modify {σ : Type} (f : σ → σ) :
    Spares (modify f : EStateM CompileError σ PUnit) :=
  agree_modify fun _ _ => ⟨trivial, Nat.le_refl _⟩

theorem Spares.decides {σ α : Type} {x : EStateM CompileError σ α} (hx : Spares x) {s t : σ}
    {e : CompileError} (h : x s = .error e t) : e.NotNative := hx.error trivial h

/-! ## Layouts and descriptors -/

namespace LayoutTable

theorem spares_ensureClass (p : Program) : ∀ (n : Nat) (type : TypeRef), Spares (ensureClass p n type)
  | 0, _ => parallel_spares.throw (by decide)
  | n + 1, type => parallel_layOut parallel_spares (spares_ensureClass p n)
    (fun _ => spares_modify _)
    (fun _ => parallel_spares.bind parallel_spares.get fun _ =>
      parallel_spares.bind (spares_modify fun _ => _) fun _ => parallel_spares.pure _) type

theorem decides_build (p : Program) (uses : List FieldUse) (roots : List TypeRef) :
    Decides CompileError.NotNative (build p uses roots) := by
  have h := parallel_spares (σ := LayoutTable)
  have classes : ∀ types : List TypeRef, Spares (types.forM fun c =>
      discard (ensureClass p (nestingBound p) c)) := fun types =>
    h.forM fun c _ => h.bind (spares_ensureClass p _ c) fun _ => h.pure _
  refine (decides_foldlM (decides_addStatic p) _ _).bind fun statics => ?_
  dsimp only
  split
  · exact decides_pure _
  · rename_i e t hrun
    exact decides_error ((classes _).decides hrun)

end LayoutTable

namespace TypeTables

theorem spares_onLayout {α : Type} {x : LayoutM α} (hx : Spares x) : Spares (onLayout x) := by
  refine fun s _ _ => ⟨rfl, fun _ => ⟨trivial, Nat.le_refl _⟩, fun {e t} h => ?_⟩
  obtain ⟨t', hr, -⟩ := onLayout_error.1 h
  exact hx.decides hr

theorem spares_ensure (p : Program) (type : TypeRef) : Spares (ensure p type) := by
  have h := parallel_spares (σ := TypeTables)
  refine parallel_ensureWithin h (by decide)
    (fun type => spares_onLayout (LayoutTable.spares_ensureClass p _ type)) (fun key => ?_)
    (fun id d => spares_modify _) _ type
  refine h.bind h.get fun s => ?_
  dsimp only
  split
  · exact h.bind (spares_modify fun _ => _) fun _ => h.pure _
  · exact h.throw (CompileError.ordinary rfl)

end TypeTables

namespace Registry

/-! ## Compiling -/

theorem spares_lowerBody {l : Lowering} (hcompile : ∀ id args, Spares (l.compile id args)) :
    Spares l.lowerBody := by
  have relates : l.Relates l.compile (fun _ => True) (fun _ => True) CompileError.NotNative fun x y =>
      Agree CompileError.NotNative (fun _ => True) (fun _ => 0) 1 x y := {
    parallel := parallel_spares
    mentions := ⟨fun _ _ => trivial, fun _ => trivial, fun _ _ _ => trivial, fun _ _ _ => trivial⟩
    compile := fun id _ => hcompile id _
    field := fun _ _ _ _ => spares_modify _
    discover := fun _ _ => spares_modify _
    root := fun _ => spares_modify _
    slot := fun {s _ _} _ _ _ r _ _ => by
      obtain ⟨i, -, h⟩ | ⟨-, h⟩ := internSlot_cases s r
      all_goals
        refine ⟨rfl, fun _ => ⟨trivial, Nat.le_refl _⟩, fun herror => ?_⟩
        rw [h] at herror
        cases herror
    fixups := fun _ _ => spares_modify _ }
  exact relates.lowerBody fun _ _ => trivial

theorem spares_compileWithin (c : BuildContext) (n : Nat) (id : MethodId) (args : List TypeRef) :
    Spares (compileWithin c n id args) :=
  parallel_compileWithin parallel_spares (by decide) (fun _ => spares_modify _)
    (fun _ => spares_modify _) (fun _ _ => spares_lowerBody) (fun _ => spares_modify _)
    (fun _ _ => spares_modify _) n id args

theorem spares_bindSlots (c : BuildContext) : Spares (bindSlots c) :=
  parallel_bindSlots parallel_spares (spares_compileWithin c _) (fun _ _ => spares_modify _)
    (by intro hkind; cases hkind)

/-! ## Tables and operands -/

theorem decides_tables (c : BuildContext) (r : Registry) :
    Decides CompileError.NotNative (r.tables c) := by
  have h := parallel_spares (σ := TypeTables)
  have describe : ∀ statics, Spares (describeStatics c.program statics) := fun statics =>
    h.forM fun e _ => h.bind (TypeTables.spares_ensure _ _) fun _ => spares_modify _
  refine (LayoutTable.decides_build _ _ _).bind fun layout => ?_
  split
  · rename_i e s hrun
    exact decides_error ((describe _).decides hrun)
  · exact (decides_checkStructs _ _).bind fun _ => decides_pure _

theorem spares_operandValue (p : Program) (r : Registry) (operand : LinkOperand) :
    Spares (operandValue p r operand) :=
  parallel_operandValue parallel_spares r fun type _ => TypeTables.spares_ensure p type

theorem spares_applyFixups (p : Program) (t : TypeTables) : Spares (applyFixups p t) := by
  have h := parallel_spares (σ := Registry)
  have fixup : ∀ t f, Spares (applyFixup p t f) := fun t f =>
    parallel_applyFixup h (fun herror => (spares_operandValue p _ _).decides herror)
      fun _ => spares_modify _
  refine h.bind h.get fun r => h.bind (spares_modify _) fun _ => ?_
  rw [← Array.foldlM_toList]
  exact h.bind (h.foldlM (fun t f _ => fixup t f) t) fun _ => h.pure _

/-! ## The link -/

/-- **The link asks for native code** exactly if the check does once binding is through. -/
theorem link_native_iff {c : BuildContext} {r : Registry} {name reason : String} :
    (∃ r', link c r = .error (.nativeCodeRequired name reason) r') ↔
      ∃ iterations r₁, bindSlots c r = .ok iterations r₁ ∧
        checkNative r₁.blockCallers = .error (.nativeCodeRequired name reason) := by
  have h := parallel_spares (σ := Registry)
  constructor
  · rintro ⟨r', hlink⟩
    obtain hbind | ⟨iterations, r₁, hbind, hrest⟩ := state_bind_error.1 hlink
    · exact absurd rfl ((spares_bindSlots c).decides hbind)
    refine ⟨iterations, r₁, hbind, ?_⟩
    rw [state_bind_of_ok (x := modify blockCallers) (a := ⟨⟩) (t := r₁.blockCallers) rfl,
      state_bind_of_ok (x := get) (a := r₁.blockCallers) (t := r₁.blockCallers) rfl] at hrest
    cases hcheck : checkNative r₁.blockCallers with
    | error e =>
      rw [hcheck] at hrest
      cases hrest
      rfl
    | ok _ =>
      -- nothing that comes after the check asks for native code
      rw [hcheck] at hrest
      refine absurd rfl (Spares.decides (x := _) ?_ hrest)
      refine h.bind (h.pure _) fun _ => h.bind h.get fun r₂ => ?_
      exact h.bind (h.ofExcept (decides_tables c r₂)) fun t =>
        h.bind (spares_applyFixups c.program t) fun _ => h.pure _
  · rintro ⟨iterations, r₁, hbind, hcheck⟩
    refine ⟨r₁.blockCallers, ?_⟩
    unfold link
    rw [state_bind_of_ok hbind,
      state_bind_of_ok (x := modify blockCallers) (a := ⟨⟩) (t := r₁.blockCallers) rfl,
      state_bind_of_ok (x := get) (a := r₁.blockCallers) (t := r₁.blockCallers) rfl, hcheck]
    rfl

end Registry

end DeviceCode
