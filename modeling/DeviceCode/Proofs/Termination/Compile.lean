import DeviceCode.Proofs.Nesting
import DeviceCode.Proofs.Registry.Identity
import DeviceCode.Proofs.Registry.Mentions

/-!
# Compiling ends

A method takes its index before its body is lowered, so the methods that are still to be compiled
become fewer with every call that is not found in the registry: without type arguments there are no
more signatures than methods in the program. `Registry.unregistered` counts those that are left, and
`alike_compileWithin` compares compiling with two bounds above that number. The comparison carries an
invariant of the registry along (`Registry.Kept`).
-/

namespace DeviceCode

open TypeRef

open List

variable {p : Program} {id : MethodId}

namespace Registry

/-- The signatures of the methods of a program, without type arguments. -/
def signatures (p : Program) : Finset String :=
  (p.methods.toList.map fun m => m.signature p []).toFinset

/-- The number of signatures of the program that are not in the registry. -/
def unregistered (p : Program) (r : Registry) : Nat :=
  unseen (signatures p) fun name => r.methodIndex? name ≠ none

variable {m : MethodDef} {l : Lowering}

theorem mem_signatures (hm : p.methodDef? id = some m) :
    m.signature p [] ∈ signatures p :=
  mem_toFinset.2 (mem_map.2 ⟨m, Array.mem_toList_iff.2 (Array.mem_of_getElem? hm), rfl⟩)

theorem card_signatures_le (p : Program) : (signatures p).card ≤ p.methods.size := by
  refine (toFinset_card_le _).trans ?_
  simp

theorem unregistered_le_size (p : Program) (r : Registry) : unregistered p r ≤ p.methods.size :=
  unseen_le_card.trans (card_signatures_le p)

theorem unregistered_le {r r' : Registry} (h : r.names <+: r'.names) :
    unregistered p r' ≤ unregistered p r :=
  unseen_le fun name hname => by
    rw [Ne, methodIndex?_none, not_not] at hname ⊢
    exact (h.map _).subset hname

theorem unregistered_lt {r r' : Registry} (hm : p.methodDef? id = some m)
    (hnew : r.methodIndex? (m.signature p []) = none) {e : CompiledMethod}
    (he : e.name = m.signature p []) (hpush : r'.methods = r.methods.push e) :
    unregistered p r' < unregistered p r := by
  have hnames : r'.names = r.names ++ [identity e] := by simp [names, hpush]
  refine unseen_lt (fun name hname => ?_) (mem_signatures hm) (not_not.2 hnew) ?_
  · rw [Ne, methodIndex?_none, not_not] at hname ⊢
    rw [hnames, map_append]
    exact mem_append_left _ hname
  · rw [Ne, methodIndex?_none, not_not, hnames, map_append]
    exact mem_append_right _ (by simp [identity, he])

/-! ## Invariants -/

/-- The invariant is kept by the updates that compiling code without type arguments can make. -/
structure Kept (p : Program) (I : Registry → Prop) : Prop where
  field : ∀ {f r}, f.declaring.isMonomorphic → f.type.isMonomorphic → I r → I (r.recordField f)
  discover : ∀ {id d r}, p.typeDef? id = some d → I r → I (r.discoverClass p (.named id []))
  root : ∀ {t r}, t.isMonomorphic → I r → I (r.addLayoutRoot t)
  slot : ∀ {s r}, s.owner.isMonomorphic → I r → I { r with slots := r.slots.push s }
  fixups : ∀ {fs : List Fixup} {r},
    (∀ f ∈ fs, ∀ t, f.operand = .descriptorId t → t.isMonomorphic) → I r →
    I { r with fixups := r.fixups ++ fs }
  methods : ∀ {r} methods, I r → I { r with methods }
  warnings : ∀ {r} warnings, I r → I { r with warnings }

theorem kept_true (p : Program) : Kept p fun _ => True := by
  constructor <;> intros <;> trivial

/-- Every type that the operation names is monomorphic. -/
def Plain (op : Op) : Prop := ∀ t ∈ op.typeRefs, t.isMonomorphic

theorem mentions_monomorphic (hp : l.program.Monomorphic) (hargs : l.typeArgs = []) :
    l.Mentions Plain (·.isMonomorphic = true) where
  operand {op t} hop ht := by
    rw [hargs, substitute_nil]
    exact hop t ht
  declaring h := isMonomorphic_named.2 (isMonomorphic_named.1 h)
  inherits := hp.inherits
  field {id args d f} h hd hf := by
    obtain rfl : args = [] := isMonomorphic_named.1 h
    rw [substitute_nil]
    exact hp.field hd hf

/-! ## Lowering -/

/-- The computations agree on registries of the invariant with less than `n` methods to come. -/
abbrev Alike (p : Program) (I : Registry → Prop) (n : Nat) {α : Type} (x y : RegistryM α) : Prop :=
  Agree CompileError.Decided I (unregistered p) n x y

theorem parallel_alike (p : Program) (I : Registry → Prop) (n : Nat) :
    Parallel CompileError.Decided fun x y => Alike p I n x y := parallel_agree

section
variable {I : Registry → Prop} {n : Nat}

theorem alike_update {f : Registry → Registry} (hf : ∀ r, I r → I (f r))
    (hnames : ∀ r, SameNames r (f r)) :
    Alike p I n (modify f : RegistryM PUnit) (modify f) :=
  agree_modify fun r hr => ⟨hf r hr, unregistered_le ((hnames r).names ▸ prefix_rfl)⟩

variable (hI : Kept p I)
include hI

theorem alike_internSlot {s : VirtualSlot} (hs : s.owner.isMonomorphic) :
    Alike p I n (internSlot s) (internSlot s) := by
  intro r hr _
  obtain ⟨i, -, h⟩ | ⟨-, h⟩ := internSlot_cases s r
  all_goals refine ⟨rfl, fun hok => ?_, fun herror => by rw [h] at herror; cases herror⟩
  · rw [h] at hok
    cases hok
    exact ⟨hr, Nat.le_refl _⟩
  · rw [h] at hok
    cases hok
    exact ⟨hI.slot hs hr, Nat.le_refl _⟩

/-- Lowering code without type arguments in two ways agrees, if compiling what it calls does. -/
theorem relates_alike {other : Compiler}
    (hp : l.program.Monomorphic) (hprogram : l.program = p) (hargs : l.typeArgs = [])
    (hcompile : ∀ id, Alike p I n (l.compile id []) (other id [])) :
    l.Relates other Plain (·.isMonomorphic = true) CompileError.Decided
      fun x y => Alike p I n x y where
  parallel := parallel_alike p I n
  mentions := mentions_monomorphic hp hargs
  compile {t args} id h := by
    obtain rfl : args = [] := isMonomorphic_named.1 h
    exact hcompile id
  field _ _ hdeclaring htype :=
    alike_update (fun _ => hI.field hdeclaring htype) (sameNames_recordField _)
  discover {id args d} h hd := by
    obtain rfl : args = [] := isMonomorphic_named.1 h
    rw [hprogram] at hd ⊢
    exact alike_update (fun _ => hI.discover hd) (sameNames_discoverClass _ _)
  root h := alike_update (fun _ => hI.root h) (sameNames_addLayoutRoot _)
  slot _ _ howner := alike_internSlot hI howner
  fixups hop hlowered := alike_update (fun _ => hI.fixups fun f hf t ht =>
    Lowering.descriptor_of_fixups ((mentions_monomorphic hp hargs).within hop hlowered) hf ht)
    fun _ => ⟨rfl, rfl⟩

/-! ## One method -/

theorem alike_register {body : Body} {name : String}
    (hparams : ∀ t ∈ m.params, t.isMonomorphic) (hlocals : ∀ t ∈ body.locals, t.isMonomorphic)
    (hret : m.ret.isMonomorphic) :
    Alike p I n (register p id m body [] name) (register p id m body [] name) := by
  have h := parallel_alike p I n
  have hframe : ∀ t ∈ m.params ++ body.locals ++ [m.ret], t.isMonomorphic := by
    simp only [mem_append, mem_singleton]
    rintro t ((ht | ht) | rfl)
    · exact hparams t ht
    · exact hlocals t ht
    · exact hret
  rw [register_eq]
  refine h.bind (parallel_frameSlots h _ fun t ht => ?_) fun slots => ?_
  · simp only [FrameTypes.of, substitute_nil, map_id'] at ht
    exact alike_update (fun _ => hI.root (hframe t ht)) (sameNames_addLayoutRoot _)
  · refine h.bind h.get fun r => h.bind (agree_modify fun r hr => ⟨hI.methods _ hr, ?_⟩) fun _ =>
      h.pure _
    exact unregistered_le (by simp [names, addMethod])

end

section
variable {c : BuildContext} (hp : c.program.Monomorphic) {I : Registry → Prop}
  (hI : Kept c.program I) {n : Nat}
include hp hI

/-- Completing a method without type arguments in two ways agrees, if compiling what it calls does. -/
theorem alike_complete {compile other : Compiler}
    (hcompile : ∀ id, Alike c.program I n (compile id []) (other id [])) (index : Nat) {m : CompiledMethod}
    (hargs : m.typeArgs = []) (types : FrameTypes) {code : Array Instruction}
    (hcode : ∀ i ∈ code, Plain i.op) :
    Alike c.program I n (complete c compile index m types code)
      (complete c other index m types code) := by
  refine parallel_complete (parallel_alike c.program I n) (fun l hl hcomp htypeArgs hl' => ?_)
    (fun _ => alike_update (fun _ => hI.warnings _) fun _ => ⟨rfl, rfl⟩)
    (fun f hf => alike_update (fun _ => hI.methods _) (sameNames_modifyMethod hf index)) types
  subst hl hcomp hl'
  exact (relates_alike hI hp rfl (htypeArgs.trans hargs) hcompile).lowerBody hcode

/-! ## All that a method reaches -/

/-- A method that is not in the registry takes an index, and there is one less to come. -/
theorem alike_compileWith {compile other : Compiler}
    (hcompile : ∀ id, Alike c.program I n (compile id []) (other id [])) (id : MethodId) :
    Alike c.program I (n + 1) (compileWith c compile id []) (compileWith c other id []) := by
  intro r hr hroom
  unfold compileWith
  cases hm : c.program.methodDef? id with
  | none => exact agreeAt_throw rfl
  | some m =>
    refine AgreeAt.step (a := r) (t := r) rfl rfl (Nat.le_refl _) ?_
    cases hi : r.methodIndex? (m.signature c.program []) with
    | some i => exact agreeAt_pure hr
    | none =>
      cases hb : m.body with
      | none => exact agreeAt_throw rfl
      | some body =>
        have supported := (parallel_alike c.program I (n + 1)).ofExcept
          (decides_checkSupported (m.signature c.program []) body.code) r hr hroom
        refine supported.bind fun _ r₀ hs => ?_
        obtain ⟨-, rfl⟩ := state_ofExcept_ok.1 hs
        have registered : AgreeAt CompileError.Decided I (unregistered c.program)
            (register c.program id m body [] (m.signature c.program []))
            (register c.program id m body [] (m.signature c.program [])) r :=
          alike_register hI (fun t => hp.param hm) (fun t => hp.local_ hm hb) (hp.ret hm) r hr hroom
        refine registered.bind fun index r₁ hreg => ?_
        obtain ⟨hr₁, -⟩ := registered.ok hreg
        obtain ⟨rfl, slots, -, hpush⟩ := register_ok hreg
        -- the signature is in the registry now, so there is one less to come
        have hroom₁ : unregistered c.program r₁ < n :=
          Nat.lt_of_lt_of_le (unregistered_lt hm hi rfl hpush) (Nat.le_of_lt_succ hroom)
        refine AgreeAt.step (a := r₁) (t := r₁) rfl rfl (Nat.le_refl _) ?_
        have hentry := hpush ▸ Array.getElem?_push_size
        have hcode : ∀ i ∈ body.code, Plain i.op := fun i hi t ht => hp.operand hm hb hi ht
        simp only [hentry]
        have completed := fun m hargs types =>
          alike_complete hp hI hcompile r.methods.size (m := m) hargs types hcode r₁ hr₁ hroom₁
        exact (completed _ rfl _).bind fun _ r₂ h => agreeAt_pure ((completed _ rfl _).ok h).1

/-- **Compiling does not depend on the bound** on the nesting, if it is above the number of methods to
come. -/
theorem alike_compileWithin : ∀ {k n n' : Nat}, k ≤ n → k ≤ n' → ∀ id,
      Alike c.program I k (compileWithin c n id []) (compileWithin c n' id [])
  | 0, _, _, _, _, _ => fun _ _ hroom => absurd hroom (Nat.not_lt_zero _)
  | k + 1, n + 1, n' + 1, hn, hn', id =>
    alike_compileWith hp hI (alike_compileWithin (by omega) (by omega)) id

end

end Registry

end DeviceCode
