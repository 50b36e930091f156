import DeviceCode.Proofs.Registry.Compile
import DeviceCode.Proofs.TypeTables
import Mathlib.Data.List.Nodup

/-!
# What a signature stands for

Methods and virtual slots are kept under their signatures. A signature has the short names of the
parameters, so two methods, or one method for two choices of type arguments, can share it, and then
the one that came first stands for both.

`Reachable c r`: a build with context `c` can come to the registry `r`. `Named p r`: every method and
every slot of `r` is kept under its signature, and no signature is there twice. Main statement:
`instance_of_signature`, the exact condition under which compiling a method, or asking for a slot,
gives the one that was asked for. `overload_shares_index`: two overloads that share a signature.
-/

namespace DeviceCode.Registry

open List

variable {r r' : Registry} {name key : String} {i : Nat} {s : VirtualSlot} {d : MethodDef}
  {args : List TypeRef} {p : Program} {c : BuildContext} {id : MethodId}

/-! ## Signatures in the registry -/

/-- What the methods are kept under and what they are, by index. -/
def names (r : Registry) : List (String × MethodId × List TypeRef) := r.methods.toList.map identity

/-- What the slots are kept under, their methods and the owners of these, by index. -/
def keys (r : Registry) : List (String × MethodId × TypeRef) :=
  r.slots.toList.map fun s => (s.key, s.method, s.owner)

/-- Every method and every slot is kept under its signature, and no signature is there twice. -/
structure Named (p : Program) (r : Registry) : Prop where
  methods : ∀ m ∈ r.methods, ∃ d, p.methodDef? m.method = some d ∧
    m.name = d.signature p m.typeArgs
  slots : ∀ s ∈ r.slots, ∃ d args, NamedSlot p s d args
  names_nodup : (r.names.map (·.1)).Nodup
  keys_nodup : (r.keys.map (·.1)).Nodup

theorem mem_names {x : String × MethodId × List TypeRef} :
    x ∈ r.names ↔ ∃ m ∈ r.methods, identity m = x := by
  simp [names]

theorem mem_keys {x : String × MethodId × TypeRef} :
    x ∈ r.keys ↔ ∃ s ∈ r.slots, (s.key, s.method, s.owner) = x := by
  simp [keys]

theorem getElem?_names (r : Registry) (i : Nat) : r.names[i]? = r.methods[i]?.map identity := by
  simp [names]

theorem methodIndex?_none : r.methodIndex? name = none ↔ name ∉ r.names.map (·.1) := by
  simp [methodIndex?, names, identity, Array.findIdx?_eq_none_iff]

theorem slotIndex?_none : r.slotIndex? key = none ↔ key ∉ r.keys.map (·.1) := by
  simp [slotIndex?, keys, Array.findIdx?_eq_none_iff]

theorem methodIndex?_some (h : r.methodIndex? name = some i) :
    ∃ m, r.methods[i]? = some m ∧ m.name = name := by
  obtain ⟨hi, hm, -⟩ := Array.findIdx?_eq_some_iff_getElem.1 h
  exact ⟨r.methods[i], Array.getElem?_eq_getElem hi, by simpa using hm⟩

theorem slotIndex?_some (h : r.slotIndex? key = some i) :
    ∃ s, r.slots[i]? = some s ∧ s.key = key := by
  obtain ⟨hi, hs, -⟩ := Array.findIdx?_eq_some_iff_getElem.1 h
  exact ⟨r.slots[i], Array.getElem?_eq_getElem hi, by simpa using hs⟩

namespace Named

theorem method_unique (h : Named p r) {m m' : CompiledMethod} (hm : m ∈ r.methods)
    (hm' : m' ∈ r.methods) (he : m.name = m'.name) : identity m = identity m' :=
  inj_on_of_nodup_map h.names_nodup (mem_names.2 ⟨m, hm, rfl⟩) (mem_names.2 ⟨m', hm', rfl⟩) he

theorem slot_unique (h : Named p r) {s' : VirtualSlot} (hs : s ∈ r.slots) (hs' : s' ∈ r.slots)
    (he : s.key = s'.key) : s.method = s'.method ∧ s.owner = s'.owner := by
  have heq := inj_on_of_nodup_map h.keys_nodup (mem_keys.2 ⟨s, hs, rfl⟩)
    (mem_keys.2 ⟨s', hs', rfl⟩) he
  simp only [Prod.mk.injEq] at heq
  exact heq.2

theorem empty (p : Program) : Named p {} := ⟨by simp, by simp, by simp [names], by simp [keys]⟩

theorem of_eq (h : Named p r) (hn : r'.names = r.names) (hk : r'.keys = r.keys) :
    Named p r' where
  methods m hm := by
    obtain ⟨m', hm', he⟩ := mem_names.1 (hn ▸ mem_names.2 ⟨m, hm, rfl⟩)
    simp only [identity, Prod.mk.injEq] at he
    obtain ⟨d, hd, hname⟩ := h.methods m' hm'
    exact ⟨d, he.2.1 ▸ hd, by rw [← he.1, ← he.2.2, hname]⟩
  slots s hs := by
    obtain ⟨s', hs', he⟩ := mem_keys.1 (hk ▸ mem_keys.2 ⟨s, hs, rfl⟩)
    simp only [Prod.mk.injEq] at he
    obtain ⟨d, args, hd⟩ := h.slots s' hs'
    exact ⟨d, args, he.2.1 ▸ hd.method, he.2.2 ▸ hd.owner, he.1 ▸ hd.key⟩
  names_nodup := hn ▸ h.names_nodup
  keys_nodup := hk ▸ h.keys_nodup

theorem push_method (h : Named p r) {m : CompiledMethod} (hd : p.methodDef? m.method = some d)
    (hm : m.name = d.signature p m.typeArgs) (hnew : r.methodIndex? m.name = none) :
    Named p { r with methods := r.methods.push m } where
  methods m' hm' := by
    rcases Array.mem_push.1 hm' with hm' | rfl
    · exact h.methods m' hm'
    · exact ⟨d, hd, hm⟩
  slots := h.slots
  names_nodup := by
    have hfresh := methodIndex?_none.1 hnew
    simp only [names, identity, Array.toList_push, map_append, map_cons, map_nil]
    refine nodup_append.2 ⟨h.names_nodup, by simp, fun a ha b hb => ?_⟩
    simp only [mem_singleton] at hb
    subst hb
    rintro rfl
    exact hfresh ha
  keys_nodup := h.keys_nodup

theorem push_slot (h : Named p r) (hs : NamedSlot p s d args) (hnew : r.slotIndex? s.key = none) :
    Named p { r with slots := r.slots.push s } where
  methods := h.methods
  slots s' hs' := by
    rcases Array.mem_push.1 hs' with hs' | rfl
    · exact h.slots s' hs'
    · exact ⟨d, args, hs⟩
  names_nodup := h.names_nodup
  keys_nodup := by
    have hfresh := slotIndex?_none.1 hnew
    simp only [keys, Array.toList_push, map_append, map_cons, map_nil]
    refine nodup_append.2 ⟨h.keys_nodup, by simp, fun a ha b hb => ?_⟩
    simp only [mem_singleton] at hb
    subst hb
    rintro rfl
    exact hfresh ha

end Named

/-! ## Signatures stay -/

/-- The methods and slots of `r` are still there in `r'`, and all of `r'` are named if those of `r`
were. -/
structure Identifies (p : Program) (r r' : Registry) : Prop where
  names : r.names <+: r'.names
  keys : r.keys <+: r'.keys
  named : Named p r → Named p r'

theorem growth_identifies (p : Program) : Growth (Identifies p) where
  refl _ := ⟨prefix_rfl, prefix_rfl, id⟩
  trans h₁ h₂ := ⟨h₁.names.trans h₂.names, h₁.keys.trans h₂.keys, fun h => h₂.named (h₁.named h)⟩

/-- Methods and slots are known by the same signatures. -/
structure SameNames (r r' : Registry) : Prop where
  names : r'.names = r.names
  keys : r'.keys = r.keys

theorem growth_sameNames : Growth SameNames where
  refl _ := ⟨rfl, rfl⟩
  trans h₁ h₂ := ⟨h₂.names.trans h₁.names, h₂.keys.trans h₁.keys⟩

theorem SameNames.identifies (h : SameNames r r') :
    Identifies p r r' where
  names := h.names ▸ prefix_rfl
  keys := h.keys ▸ prefix_rfl
  named hr := hr.of_eq h.names h.keys

theorem sameNames_recordField (f : FieldUse) (r : Registry) : SameNames r (r.recordField f) := by
  unfold recordField
  split <;> exact ⟨rfl, rfl⟩

theorem sameNames_discoverClass (p : Program) (t : TypeRef) (r : Registry) :
    SameNames r (r.discoverClass p t) := by
  unfold discoverClass
  dsimp only
  split <;> exact ⟨rfl, rfl⟩

theorem sameNames_addLayoutRoot (t : TypeRef) (r : Registry) :
    SameNames r (r.addLayoutRoot t) := by
  unfold addLayoutRoot
  split <;> exact ⟨rfl, rfl⟩

theorem sameNames_modifyMethod {f : CompiledMethod → CompiledMethod}
    (hf : ∀ m, identity (f m) = identity m) (index : Nat) (r : Registry) :
    SameNames r (r.modifyMethod index f) := by
  refine ⟨ext_getElem? fun i => ?_, rfl⟩
  rw [getElem?_names, getElem?_names, modifyMethod, Array.getElem?_modify]
  split
  · rw [Option.map_map]
    exact congrArg (Option.map · _) (funext hf)
  · rfl

theorem sameNames_bindClass (index : Nat) (implementor : String × Nat) (r : Registry) :
    SameNames r (bindClass index implementor r) := by
  have keys_eq : ∀ r : Registry, r.keys =
      (r.slots.toList.map unbound).map fun s => (s.key, s.method, s.owner) := by
    intro r
    rw [map_map]
    rfl
  refine ⟨rfl, ?_⟩
  rw [keys_eq, keys_eq, bindClass, unbound_modify]

theorem identifies_internSlot (hs : NamedSlot p s d args) :
    Keeps (Identifies p) (internSlot s) := by
  intro r
  obtain ⟨i, -, h⟩ | ⟨hnew, h⟩ := internSlot_cases s r
  · rw [stateAfter_ok h]
    exact (growth_identifies p).refl r
  · rw [stateAfter_ok h]
    exact ⟨prefix_rfl, by simp [Registry.keys], fun hr => hr.push_slot hs hnew⟩

theorem admits_identifies {l : Lowering} (h : Compiler.Keeps l.compile (Identifies l.program)) :
    l.Admits (Identifies l.program) where
  growth := growth_identifies l.program
  compile := h
  field f r := (sameNames_recordField f r).identifies
  discover t r := (sameNames_discoverClass l.program t r).identifies
  root t r := (sameNames_addLayoutRoot t r).identifies
  slot hs _ := identifies_internSlot hs
  fixups _ _ := SameNames.identifies ⟨rfl, rfl⟩

theorem identifies_register {m : MethodDef} (hm : p.methodDef? id = some m)
    (body : Body) (typeArgs : List TypeRef) (hnew : r.methodIndex? (m.signature p typeArgs) = none) :
    Identifies p r (stateAfter (register p id m body typeArgs (m.signature p typeArgs)) r) := by
  have guarded := keeps_register growth_sameNames
    (Q := fun r r' => r.methodIndex? (m.signature p typeArgs) = none → Identifies p r r')
    (fun _ _ h _ => h.identifies) (fun r s t h hst hr => ?_) sameNames_addLayoutRoot
    p id m body typeArgs (m.signature p typeArgs) (fun e r he hr => ?_)
  · exact guarded r hnew
  · refine (growth_identifies p).trans h.identifies (hst ?_)
    rw [methodIndex?_none] at hr ⊢
    rwa [h.names]
  · simp only [identity, Prod.mk.injEq] at he
    obtain ⟨hname, rfl, rfl⟩ := he
    exact ⟨by simp [Registry.names], prefix_rfl,
      fun h => h.push_method hm hname (by rw [hname]; exact hr)⟩

theorem identifies_complete {compile : Compiler}
    (hc : compile.Keeps (Identifies c.program)) (index : Nat)
    (m : CompiledMethod) (types : FrameTypes) (code : Array Instruction) :
    Keeps (Identifies c.program) (complete c compile index m types code) := by
  refine keeps_complete (growth_identifies _) (fun l hl hcomp => ?_)
    (fun w r => SameNames.identifies ⟨rfl, rfl⟩)
    (fun f hf r => (sameNames_modifyMethod hf index r).identifies) m types code
  have hp : l.program = c.program := by rw [Lowering.program, hl]
  rw [← hp] at hc ⊢
  exact (admits_identifies (hcomp ▸ hc)).lowerBody

theorem identifies_compileWithin (c : BuildContext) :
    ∀ fuel, Compiler.Keeps (compileWithin c fuel) (Identifies c.program)
  | 0, _, _ => (growth_identifies _).throw _
  | n + 1, id, args => by
    intro r
    rw [compileWithin]
    obtain h | ⟨m, body, hm, -, hnew, h⟩ :=
      stateAfter_compileWith c (compileWithin c n) id args r
    · rw [h]
      exact (growth_identifies _).refl r
    · have hreg := identifies_register hm body args hnew
      obtain ⟨e, r₁, hr, h⟩ | ⟨r₁, entry, hr, h⟩ := h
      · rw [stateAfter_error hr] at hreg
        rw [h]
        exact hreg
      · rw [stateAfter_ok hr] at hreg
        rw [h]
        exact (growth_identifies _).trans hreg
          (identifies_complete (identifies_compileWithin c n) _ entry _ _ r₁)

/-! ## Linking -/

theorem admitsBinding_identifies (c : BuildContext) :
    AdmitsBinding c fun x => Keeps (Identifies c.program) x where
  closed := (growth_identifies c.program).closed_keeps
  compile := identifies_compileWithin c _
  discover t := Growth.modify fun r => (sameNames_discoverClass c.program t r).identifies
  bind index implementor :=
    Growth.modify fun r => (sameNames_bindClass index implementor r).identifies

theorem sameNames_block (index : Nat) (reason : CObstacle) (r : Registry) :
    SameNames r (r.block index reason) := by
  refine sameNames_modifyMethod (fun m => ?_) index r
  split <;> rfl

theorem sameNames_applyFixup (p : Program) (t : TypeTables) (f : Fixup) :
    Keeps SameNames (applyFixup p t f) := by
  refine parallel_applyFixup growth_sameNames.keeps_parallel (fun _ => trivial) fun _ =>
    Growth.modify (sameNames_modifyMethod (fun m => ?_) _)
  rfl

theorem identifies_link (c : BuildContext) : Keeps (Identifies c.program) (link c) := by
  have g := growth_identifies c.program
  have same : ∀ {α : Type} {x : RegistryM α}, Keeps SameNames x → Keeps (Identifies c.program) x :=
    fun h r => (h r).identifies
  refine g.bind (admitsBinding_identifies c).bindSlots fun iterations => ?_
  refine g.bind (Growth.modify fun r => (growth_blockCallersWithin growth_sameNames
    sameNames_block _ r).identifies) fun _ => ?_
  refine g.bind g.get fun r => ?_
  refine g.bind (g.ofExcept _) fun _ => ?_
  refine g.bind g.get fun r => ?_
  refine g.bind (g.ofExcept _) fun tables => ?_
  refine g.bind (same ?_) fun _ => g.pure _
  have s := growth_sameNames
  refine s.bind s.get fun r => ?_
  refine s.bind (Growth.modify fun r => ⟨rfl, rfl⟩) fun _ => ?_
  refine s.bind ?_ fun _ => s.pure _
  rw [← Array.foldlM_toList]
  exact s.foldlM (sameNames_applyFixup c.program) _ _

/-! ## Registries of a build -/

/-- A build with that context can come to the registry: from the empty one, by compiling methods,
finding classes, binding slots and linking, also where these fail. A method that is compiled while
the body of another is lowered finds the registry as that body has left it so far. -/
inductive Reachable (c : BuildContext) : Registry → Prop
  | empty : Reachable c {}
  | discover {r : Registry} (t : TypeRef) : Reachable c r → Reachable c (r.discoverClass c.program t)
  | compile {r : Registry} (fuel : Nat) (id : MethodId) (args : List TypeRef) :
    Reachable c r → Reachable c (stateAfter (compileWithin c fuel id args) r)
  | register {r : Registry} {id : MethodId} {d : MethodDef} {args : List TypeRef} (body : Body) :
    Reachable c r → c.program.methodDef? id = some d →
      r.methodIndex? (d.signature c.program args) = none →
      Reachable c (stateAfter (register c.program id d body args (d.signature c.program args)) r)
  | lower {r : Registry} {l : Lowering} (fuel : Nat) (body : LoweredBody)
    (item : Instruction × Nat) : Reachable c r → l.context = c → l.compile = compileWithin c fuel →
      Reachable c (stateAfter (l.lowerNext body item) r)
  | bind {r : Registry} (slotIndex classIndex : Nat) :
    Reachable c r → Reachable c (stateAfter (bind c slotIndex classIndex) r)
  | link {r : Registry} : Reachable c r → Reachable c (stateAfter (link c) r)

/-- **Every registry of a build is named.** -/
theorem Reachable.named (h : Reachable c r) : Named c.program r := by
  induction h with
  | empty => exact Named.empty _
  | discover t _ ih => exact (sameNames_discoverClass _ t _).identifies.named ih
  | compile fuel id args _ ih => exact (identifies_compileWithin c fuel id args _).named ih
  | register body _ hd hnew ih => exact (identifies_register hd body _ hnew).named ih
  | @lower r l fuel body item _ hl hcomp ih =>
    have hp : l.program = c.program := by rw [Lowering.program, hl]
    have admits : l.Admits (Identifies l.program) :=
      admits_identifies (by rw [hp, hcomp]; exact identifies_compileWithin c fuel)
    rw [← hp] at ih ⊢
    exact (admits.lowerNext body item r).named ih
  | bind slotIndex classIndex _ ih =>
    exact ((admitsBinding_identifies c).bindPair slotIndex classIndex _).named ih
  | link _ ih => exact (identifies_link c _).named ih

/-! ## What is found under a signature -/

/-- A method that is compiled is found under its signature. Either it is new and is the one that was
asked for, or it was there. -/
theorem compileWithin_entry {fuel : Nat} {index : Nat}
    (h : compileWithin c fuel id args r = .ok index r') :
    ∃ d m, c.program.methodDef? id = some d ∧ r'.methods[index]? = some m ∧
      m.name = d.signature c.program args ∧
      (m ∈ r.methods ∨
        r.methodIndex? (d.signature c.program args) = none ∧ m.method = id ∧ m.typeArgs = args) := by
  cases fuel with
  | zero => simp [compileWithin] at h
  | succ n =>
    obtain ⟨d, hd, ⟨hi, rfl⟩ | ⟨hnew, rfl, body, r₁, slots, -, -, -, -, hpush, hcomp⟩⟩ :=
      compileWith_ok h
    · obtain ⟨m, hm, hname⟩ := methodIndex?_some hi
      exact ⟨d, m, hd, hm, hname, .inl (Array.mem_of_getElem? hm)⟩
    · have hid : r₁.names[r.methods.size]? = some (d.signature c.program args, id, args) := by
        rw [getElem?_names, hpush, Array.getElem?_push_size]
        rfl
      -- completing the entry leaves what it is known by
      have hkeep := (identifies_complete (identifies_compileWithin c n) _ _ _ _).ok hcomp
      have hfound : r'.names[r.methods.size]? = some (d.signature c.program args, id, args) := by
        obtain ⟨hlt, -⟩ := List.getElem?_eq_some_iff.1 hid
        rw [← hid]
        exact (List.prefix_iff_getElem?.1 hkeep.names _ hlt).trans
          (List.getElem?_eq_getElem hlt).symm
      rw [getElem?_names, Option.map_eq_some_iff] at hfound
      obtain ⟨m, hm, he⟩ := hfound
      simp only [identity, Prod.mk.injEq] at he
      exact ⟨d, m, hd, hm, he.1, .inr ⟨hnew, he.2⟩⟩

/-- A slot that is asked for is found under its signature. Either it is new or it was there. -/
theorem internSlot_entry (h : internSlot s r = .ok i r') :
    ∃ s', r'.slots[i]? = some s' ∧ s'.key = s.key ∧
      (s' ∈ r.slots ∨ r.slotIndex? s.key = none ∧ s' = s) := by
  obtain ⟨j, hj, hr⟩ | ⟨hnew, hr⟩ := internSlot_cases s r
  · rw [hr] at h
    cases h
    obtain ⟨s', hs', hkey⟩ := slotIndex?_some hj
    exact ⟨s', hs', hkey, .inl (Array.mem_of_getElem? hs')⟩
  · rw [hr] at h
    cases h
    exact ⟨s, by simp, rfl, .inr ⟨hnew, rfl⟩⟩

/-- **What a signature stands for.** Whenever a method is compiled, the entry that it gets has its
signature; it is the entry of that method for those type arguments if and only if no other method
was registered under the signature. Likewise a slot is the one that was asked for if and only if no
other method has a slot under the signature. -/
theorem instance_of_signature {c : BuildContext} {r : Registry} (h : Reachable c r) :
    (∀ fuel id args index r', compileWithin c fuel id args r = .ok index r' →
      ∃ d m, c.program.methodDef? id = some d ∧ r'.methods[index]? = some m ∧
        m.name = d.signature c.program args ∧
        ((m.method = id ∧ m.typeArgs = args) ↔
          ∀ m' ∈ r.methods, ∀ d', c.program.methodDef? m'.method = some d' →
            d'.signature c.program m'.typeArgs = d.signature c.program args →
            m'.method = id ∧ m'.typeArgs = args)) ∧
    (∀ s d args index r', NamedSlot c.program s d args → internSlot s r = .ok index r' →
      ∃ s', r'.slots[index]? = some s' ∧ s'.key = d.signature c.program args ∧
        ((s'.method = s.method ∧ s'.owner = s.owner) ↔
          ∀ t ∈ r.slots, ∀ d' args', NamedSlot c.program t d' args' →
            d'.signature c.program args' = d.signature c.program args →
            t.method = s.method ∧ t.owner = s.owner)) := by
  have hr := h.named
  refine ⟨fun fuel id args index r' hc => ?_, fun s d args index r' hs hi => ?_⟩
  · obtain ⟨d, m, hd, hm, hname, hcase⟩ := compileWithin_entry hc
    refine ⟨d, m, hd, hm, hname, ⟨fun hm' m' hmem d' hd' hsig => ?_, fun hall => ?_⟩⟩
    · -- whatever has the signature is `m`
      obtain ⟨d'', hd'', hname'⟩ := hr.methods m' hmem
      obtain rfl : d' = d'' := Option.some.inj (hd'.symm.trans hd'')
      have he : m'.name = d.signature c.program args := by rw [hname', hsig]
      obtain hold | ⟨hnew, -⟩ := hcase
      · have hid := hr.method_unique hmem hold (he.trans hname.symm)
        simp only [identity, Prod.mk.injEq] at hid
        rw [hid.2.1, hid.2.2]
        exact hm'
      · rw [methodIndex?_none] at hnew
        exact absurd (he ▸ mem_map_of_mem (mem_names.2 ⟨m', hmem, rfl⟩)) hnew
    · obtain hold | ⟨-, hnew⟩ := hcase
      · obtain ⟨d', hd', hname'⟩ := hr.methods m hold
        exact hall m hold d' hd' (hname'.symm.trans hname)
      · exact hnew
  · obtain ⟨s', hs', hkey, hcase⟩ := internSlot_entry hi
    have hkey' : s'.key = d.signature c.program args := hkey.trans hs.key
    refine ⟨s', hs', hkey', ⟨fun hsame t ht d' args' htn hsig => ?_, fun hall => ?_⟩⟩
    · have he : t.key = s'.key := by rw [htn.key, hsig, hkey']
      obtain hold | ⟨hnew, -⟩ := hcase
      · obtain ⟨h₁, h₂⟩ := hr.slot_unique ht hold he
        rw [h₁, h₂]
        exact hsame
      · rw [slotIndex?_none] at hnew
        refine absurd ?_ hnew
        rw [← hkey, ← he]
        exact mem_map_of_mem (mem_keys.2 ⟨t, ht, rfl⟩)
    · obtain hold | ⟨-, rfl⟩ := hcase
      · obtain ⟨d', args', htn⟩ := hr.slots s' hold
        exact hall s' hold d' args' htn (htn.key.symm.trans hkey')
      · exact ⟨rfl, rfl⟩

/-! ## Two overloads with one signature -/

/-- `P.F(A.X)` and `P.F(B.X)`. -/
def overloads : BuildContext where
  program := {
    types := #[{ name := "A.X" }, { name := "B.X" }, { name := "P", methods := [⟨0⟩, ⟨1⟩] }]
    methods := #[
      { name := "F", declaring := ⟨2⟩, params := [.named ⟨0⟩ []], isStatic := true
        body := some { code := #[{ op := .ret }] } },
      { name := "F", declaring := ⟨2⟩, params := [.named ⟨1⟩ []], isStatic := true
        body := some { code := #[{ op := .ret }] } }] }

/-- The registry after `P.F(A.X)` is compiled. -/
def firstOverload : Registry := stateAfter (compileMethod overloads ⟨0⟩ []) {}

theorem reachable_firstOverload : Reachable overloads firstOverload := .compile _ _ _ .empty

theorem compileWithin_firstOverload :
    compileWithin overloads 1 ⟨1⟩ [] firstOverload = .ok 0 firstOverload := by decide +kernel

/-- The second overload is asked for, and the first one is found under their signature. -/
theorem signature_of_first_overload :
    Reachable overloads firstOverload ∧
      compileWithin overloads 1 ⟨1⟩ [] firstOverload = .ok 0 firstOverload ∧
      ∃ d m, overloads.program.methodDef? ⟨1⟩ = some d ∧ firstOverload.methods[0]? = some m ∧
        m.name = d.signature overloads.program [] ∧
        ((m.method = ⟨1⟩ ∧ m.typeArgs = []) ↔
          ∀ m' ∈ firstOverload.methods, ∀ d', overloads.program.methodDef? m'.method = some d' →
            d'.signature overloads.program m'.typeArgs = d.signature overloads.program [] →
            m'.method = ⟨1⟩ ∧ m'.typeArgs = []) :=
  ⟨reachable_firstOverload, compileWithin_firstOverload,
    (instance_of_signature reachable_firstOverload).1 1 ⟨1⟩ [] 0 firstOverload
      compileWithin_firstOverload⟩

/-- Compiling `P.F(B.X)` after `P.F(A.X)` gives the entry of `P.F(A.X)`. -/
theorem overload_shares_index :
    Reachable overloads firstOverload ∧
      compileMethod overloads ⟨1⟩ [] firstOverload = .ok 0 firstOverload ∧
      firstOverload.methods[0]?.map identity = some ("P.F(X)", ⟨0⟩, []) :=
  ⟨reachable_firstOverload, by decide +kernel, by decide +kernel⟩

end DeviceCode.Registry
