import DeviceCode.Proofs.Registry.Growth

/-!
# What an instruction is lowered to

`Lowering.Lowers l index op lowered`: the pieces and the site that an instruction can get.
`Lowering.Moves`: what its lowering does to the registry, at most one method is compiled, the field of
the site is recorded, and no operand is left open. `lowerOp_ok` says both of an instruction, and
`lowerBody_ok` of a whole body: its instructions are lowered one after the other, and the operands of
each that wait for the link are recorded behind it (`Lowering.Runs`).
-/

namespace DeviceCode

open List

variable {r r' : Registry} {i index : Nat} {p : Program} {site : Site} {l : Lowering}
  {lowered o : LoweredOp} {m : MethodRef} {target : CallTarget} {type : TypeRef} {opcode : Opcode}
  {op : Op}

namespace Registry

/-- Nothing but notes on classes, layouts and virtual slots is added. -/
structure Notes (r r' : Registry) : Prop where
  extension : Extends r r'
  methods : r'.methods = r.methods
  fixups : r'.fixups = r.fixups
  fields : r'.fields = r.fields

theorem growth_notes : Growth Notes where
  refl r := ⟨growth_extends.refl r, rfl, rfl, rfl⟩
  trans h₁ h₂ := ⟨growth_extends.trans h₁.extension h₂.extension, h₂.methods.trans h₁.methods,
    h₂.fixups.trans h₁.fixups, h₂.fields.trans h₁.fields⟩

theorem notes_discoverClass (p : Program) (t : TypeRef) (r : Registry) :
    Notes r (r.discoverClass p t) := by
  refine ⟨extends_discoverClass p t r, ?_, ?_, ?_⟩ <;>
    (unfold discoverClass; dsimp only; split <;> rfl)

theorem notes_addLayoutRoot (t : TypeRef) (r : Registry) : Notes r (r.addLayoutRoot t) := by
  refine ⟨extends_addLayoutRoot t r, ?_, ?_, ?_⟩ <;> (unfold addLayoutRoot; split <;> rfl)

theorem notes_internSlot {slot : VirtualSlot} (h : internSlot slot r = .ok i r') : Notes r r' := by
  refine ⟨(keeps_internSlot slot).ok h, ?_, ?_, ?_⟩ <;>
    (obtain ⟨j, -, hs⟩ | ⟨-, hs⟩ := internSlot_cases slot r <;> rw [hs] at h <;> cases h <;> rfl)

/-- The site accesses the field. -/
def Uses (p : Program) (site : Site) (f : FieldUse) : Prop :=
  ∃ storage, Storage.ofType p f.type = .ok storage ∧
    site = .field f.key f.inStaticRegion f.host storage.tag

/-- The field that a site accesses is recorded. -/
inductive Records (p : Program) (r : Registry) (site : Site) : Registry → Prop
  | field {f : FieldUse} (uses : Uses p site f) : Records p r site (r.recordField f)
  | none (other : ∀ key inStaticRegion host tag, site ≠ .field key inStaticRegion host tag) :
    Records p r site r

theorem Records.extension (h : Records p r site r') : Extends r r' := by
  cases h with
  | field uses => exact extends_recordField _ r
  | none other => exact growth_extends.refl r

theorem Records.methods (h : Records p r site r') : r'.methods = r.methods := by
  cases h with
  | field uses => unfold recordField; split <;> rfl
  | none other => rfl

theorem Records.fixups (h : Records p r site r') : r'.fixups = r.fixups := by
  cases h with
  | field uses => unfold recordField; split <;> rfl
  | none other => rfl

end Registry

/-- What a call gives. -/
def MethodRef.resultType (m : MethodRef) (typeArgs : List TypeRef) : TypeRef :=
  match m.owner.substitute typeArgs with
  | .named _ args => m.ret.substitute args
  | _ => m.ret.substitute []

namespace Lowering

open Registry (Notes growth_notes Records)

/-! ## Single instructions -/

/-- The code of a call; a call through dispatch waits for the index of the slot with that key. -/
def callCode (key : String) : CallTarget → List Piece
  | .builtin id => [.opcode .callBuiltin, .word id]
  | .user index => [.opcode .call, .word index.toUInt16]
  | .slot _ => [.opcode .callvirtSlot, .link (.dispatchIndex key)]

def isSlot : CallTarget → Bool
  | .slot _ => true
  | _ => false

/-- The flags of a field operand. -/
def fieldFlags (inStaticRegion host : Bool) : UInt8 :=
  (if inStaticRegion then Opcode.fieldStatic else 0) ||| (if host then Opcode.fieldHost else 0)

/-- The pieces and the site that an instruction can get. -/
inductive Lowers (l : Lowering) (index : Nat) : Op → LoweredOp → Prop
  | plain {op : Op} {lowered : LoweredOp} (h : l.lowerPlain index op = .ok lowered) :
    Lowers l index op lowered
  | call (isVirtual : Bool) (m : MethodRef) (target : CallTarget) (key : String)
    (storage : Option Storage) (wide : Option Primitive) :
    Lowers l index (.call isVirtual m) {
      pieces := if isVirtual && !isSlot target then .opcode .callvirtDirect :: callCode key target
        else callCode key target
      site := .call target m.pops storage
      wide
      callee := calleeOf target }
  | methodAddress (m : MethodRef) (target : CallTarget) (key : String) :
    Lowers l index (.methodAddress m) {
      pieces := .opcode .ldftn :: callCode key target
      callee := calleeOf target }
  | newObject (m : MethodRef) (target : CallTarget) (key : String) (classId : Piece)
    (ret : Storage) :
    Lowers l index (.newObject m) {
      pieces := .opcode .newobj :: classId :: callCode key target
      site := .call target m.params.length (some ret)
      callee := calleeOf target }
  | initObject (type : TypeRef) (classId : Piece) :
    Lowers l index (.initObject type) { pieces := [.opcode .initobj, classId] }
  | castClass (type : TypeRef) (classId : Piece) :
    Lowers l index (.castClass type) { pieces := [.opcode .castclass, classId] }
  | box (type : TypeRef) :
    Lowers l index (.box type)
      { pieces := [.opcode .box, .link (.descriptorId (type.substitute l.typeArgs))] }
  | unbox (type : TypeRef) :
    Lowers l index (.unbox type)
      { pieces := [.opcode .unbox, .link (.descriptorId (type.substitute l.typeArgs))] }
  | newArray (type : TypeRef) :
    Lowers l index (.newArray type)
      { pieces := [.opcode .newarr, .link (.descriptorId (type.substitute l.typeArgs))] }
  | elementAddress (type : TypeRef) :
    Lowers l index (.elementAddress type)
      { pieces := [.opcode .ldelema, .link (.descriptorId (type.substitute l.typeArgs))] }
  | field (isStatic : Bool) (access : Access) (f : FieldRef) (key : String)
    (inStaticRegion host : Bool) (tag : Tag) (id : Piece) (wide : Option Primitive)
    (region : isStatic || host → inStaticRegion) (size : id.size = 2) :
    Lowers l index (.field isStatic access f) {
      pieces := [.opcode (fieldOpcode access), .byte (fieldFlags inStaticRegion host),
        .link (.fieldOffset key), id]
      site := .field key inStaticRegion host tag
      wide }

/-- The method that is called is compiled, if there is one. -/
def Calls (l : Lowering) (r r' : Registry) : Option Nat → Prop
  | none => r' = r
  | some callee => callee < 65536 ∧ ∃ id args, l.compile id args r = .ok callee r'

/-- What lowering an instruction does to the registry: it compiles the method that is called, records
the field that is accessed, and leaves notes. -/
def Moves (l : Lowering) (r r' : Registry) (lowered : LoweredOp) : Prop :=
  ∃ r₁ r₂, l.Calls r r₁ lowered.callee ∧ Records l.program r₁ lowered.site r₂ ∧ Notes r₂ r'

theorem Moves.of_notes {r₁ : Registry} (hcalls : l.Calls r r₁ lowered.callee) (hn : Notes r₁ r')
    (hsite : ∀ key inStaticRegion host tag, lowered.site ≠ .field key inStaticRegion host tag) :
    l.Moves r r' lowered :=
  ⟨r₁, r₁, hcalls, .none hsite, hn⟩

/-- A method that the call reaches was compiled. -/
def Reaches (l : Lowering) (r : Registry) (target : CallTarget) (r' : Registry) : Prop :=
  (calleeOf target = none → Notes r r') ∧
    ∀ callee, calleeOf target = some callee → ∃ id args, l.compile id args r = .ok callee r'

theorem resolveCall_ok (h : l.resolveCall m r = .ok target r') : l.Reaches r target r' := by
  unfold resolveCall at h
  cases hb : l.context.builtins.lookup? (m.signature l.program) with
  | some id =>
    simp only [hb] at h
    obtain ⟨rfl, rfl⟩ := state_pure_ok.1 h
    exact ⟨fun _ => growth_notes.refl r, fun callee hc => by cases hc⟩
  | none =>
    simp only [hb] at h
    obtain ⟨resolved, -, h⟩ := state_ofExcept_bind_ok.1 h
    obtain ⟨-, h⟩ := state_guard_ok.1 h
    obtain ⟨-, h⟩ := state_guard_ok.1 h
    obtain ⟨callee, r₁, hc, h⟩ := state_bind_ok.1 h
    obtain ⟨rfl, rfl⟩ := state_pure_ok.1 h
    refine ⟨fun hnone => by simp [calleeOf] at hnone, fun k hk => ?_⟩
    cases hk
    exact ⟨_, _, hc⟩

theorem resolveVirtualCall_ok (h : l.resolveVirtualCall m r = .ok target r') :
    l.Reaches r target r' := by
  unfold resolveVirtualCall at h
  cases hb : l.context.builtins.lookup? (m.signature l.program) with
  | some id =>
    simp only [hb] at h
    obtain ⟨rfl, rfl⟩ := state_pure_ok.1 h
    exact ⟨fun _ => growth_notes.refl r, fun callee hc => by cases hc⟩
  | none =>
    simp only [hb] at h
    obtain ⟨resolved, -, h⟩ := state_ofExcept_bind_ok.1 h
    rcases state_ite_ok.1 h with ⟨-, h⟩ | ⟨-, h⟩
    · obtain ⟨i, r₁, hs, h⟩ := state_bind_ok.1 h
      obtain ⟨rfl, rfl⟩ := state_pure_ok.1 h
      exact ⟨fun _ => Registry.notes_internSlot hs, fun callee hc => by cases hc⟩
    · exact resolveCall_ok h

theorem checkIndex_ok {u : Unit} (h : checkIndex target r = .ok u r') :
    r = r' ∧ ∀ callee, calleeOf target = some callee → callee < 65536 := by
  unfold checkIndex at h
  split at h
  · split at h
    · rename_i hlt
      obtain ⟨-, rfl⟩ := state_pure_ok.1 h
      exact ⟨rfl, fun callee hc => by cases hc; exact hlt⟩
    · simp at h
  · rename_i hne
    obtain ⟨-, rfl⟩ := state_pure_ok.1 h
    refine ⟨rfl, fun callee hc => ?_⟩
    cases target with
    | user k => exact absurd rfl (hne k)
    | builtin id | slot i => cases hc

theorem callPieces_ok {pieces : List Piece} (h : callPieces target r = .ok pieces r') :
    r = r' ∧ ∃ key, pieces = callCode key target := by
  unfold callPieces at h
  split at h
  · obtain ⟨rfl, rfl⟩ := state_pure_ok.1 h
    exact ⟨rfl, "", rfl⟩
  · obtain ⟨rfl, rfl⟩ := state_pure_ok.1 h
    exact ⟨rfl, "", rfl⟩
  · obtain ⟨rfl, rfl⟩ := state_pure_ok.1 h
    exact ⟨rfl, _, rfl⟩

theorem target_ok {x : RegistryM CallTarget} {k : CallTarget → RegistryM LoweredOp}
    (hx : ∀ {target r₁}, x r = .ok target r₁ → l.Reaches r target r₁)
    (h : (x >>= fun target => checkIndex target >>= fun _ => k target) r = .ok lowered r') :
    ∃ target r₁ r₂, l.Calls r r₁ (calleeOf target) ∧ Notes r₁ r₂ ∧ k target r₂ = .ok lowered r' := by
  obtain ⟨target, r₂, ht, h⟩ := state_bind_ok.1 h
  obtain ⟨hnone, hsome⟩ := hx ht
  obtain ⟨_, r₃, hcheck, h⟩ := state_bind_ok.1 h
  obtain ⟨rfl, hlt⟩ := checkIndex_ok hcheck
  refine ⟨target, ?_⟩
  cases hc : calleeOf target with
  | none => exact ⟨r, r₂, rfl, hnone hc, h⟩
  | some callee => exact ⟨r₂, r₂, ⟨hlt callee hc, hsome callee hc⟩, growth_notes.refl r₂, h⟩

variable {isVirtual isStatic : Bool} {access : Access} {f : FieldRef}

theorem lowerCall_eq (h : l.lowerCall isVirtual m r = .ok lowered r') :
    ∃ target key storage r₁, l.Calls r r₁ (calleeOf target) ∧ Notes r₁ r' ∧
      Storage.ofResult l.program (m.resultType l.typeArgs) = .ok storage ∧ lowered = {
        pieces := if isVirtual && !isSlot target then .opcode .callvirtDirect :: callCode key target
          else callCode key target
        site := .call target m.pops storage
        wide := narrowedType storage (m.resultType l.typeArgs)
        callee := calleeOf target } := by
  have finish := state_ite_ok.1 h |>.elim (fun h => target_ok resolveVirtualCall_ok h.2)
    fun h => target_ok resolveCall_ok h.2
  obtain ⟨target, r₁, r₂, hcalls, hn, h⟩ := finish
  obtain ⟨call, r₃, hcall, h⟩ := state_bind_ok.1 h
  obtain ⟨rfl, key, rfl⟩ := callPieces_ok hcall
  obtain ⟨storage, hstorage, h⟩ := state_ofExcept_bind_ok.1 h
  obtain ⟨rfl, rfl⟩ := state_pure_ok.1 h
  refine ⟨target, key, storage, r₁, hcalls, hn, ?_⟩
  revert hstorage
  unfold MethodRef.resultType instantiate
  cases m.owner.substitute l.typeArgs <;>
    exact fun hstorage => ⟨hstorage, by cases target <;> rfl⟩

theorem lowerCall_ok (h : l.lowerCall isVirtual m r = .ok lowered r') :
    l.Moves r r' lowered ∧ l.Lowers index (.call isVirtual m) lowered := by
  obtain ⟨target, key, storage, r₁, hcalls, hn, -, rfl⟩ := lowerCall_eq h
  exact ⟨.of_notes hcalls hn (by simp), .call isVirtual m target key storage _⟩

theorem lowerMethodAddress_ok (h : l.lowerMethodAddress m r = .ok lowered r') :
    l.Moves r r' lowered ∧ l.Lowers index (.methodAddress m) lowered := by
  obtain ⟨target, r₁, r₂, hcalls, hn, h⟩ := target_ok resolveCall_ok h
  obtain ⟨call, r₃, hcall, h⟩ := state_bind_ok.1 h
  obtain ⟨rfl, key, rfl⟩ := callPieces_ok hcall
  obtain ⟨rfl, rfl⟩ := state_pure_ok.1 h
  exact ⟨.of_notes hcalls hn (by simp), .methodAddress m target key⟩

/-- The id of a class, or what stands for none. -/
def ClassPiece (piece : Piece) : Prop :=
  (∃ w, piece = .word w) ∨ ∃ key, piece = .link (.classId key)

theorem classPiece_ok {piece : Piece} (h : l.classPiece type r = .ok piece r') :
    Notes r r' ∧ ClassPiece piece := by
  rcases state_ite_ok.1 h with ⟨-, h⟩ | ⟨-, h⟩
  · obtain ⟨_, r₁, hroot, h⟩ := state_bind_ok.1 h
    rw [state_modify_ok] at hroot
    obtain ⟨rfl, rfl⟩ := state_pure_ok.1 h
    exact ⟨hroot ▸ Registry.notes_addLayoutRoot type r, .inr ⟨_, rfl⟩⟩
  · obtain ⟨rfl, rfl⟩ := state_pure_ok.1 h
    exact ⟨growth_notes.refl r, .inl ⟨_, rfl⟩⟩

theorem lowerClassOp_ok (h : l.lowerClassOp opcode type r = .ok lowered r') :
    Notes r r' ∧ ∃ classId : Piece, lowered = { pieces := [.opcode opcode, classId] } := by
  obtain ⟨piece, r₁, hp, h⟩ := state_bind_ok.1 h
  obtain ⟨rfl, rfl⟩ := state_pure_ok.1 h
  exact ⟨(classPiece_ok hp).1, piece, rfl⟩

theorem lowerDescriptorOp_ok (h : l.lowerDescriptorOp opcode type r = .ok lowered r') :
    Notes r r' ∧ lowered =
      { pieces := [.opcode opcode, .link (.descriptorId (type.substitute l.typeArgs))] } := by
  obtain ⟨key, -, h⟩ := state_ofExcept_bind_ok.1 h
  obtain ⟨rfl, rfl⟩ := state_pure_ok.1 h
  exact ⟨growth_notes.refl r, rfl⟩

/-- A new object and the call of its constructor. -/
def Creates (l : Lowering) (m : MethodRef) (r : Registry) (lowered : LoweredOp) (r' : Registry) :
    Prop :=
  ∃ target key classId ret r₁, l.Calls r r₁ (calleeOf target) ∧ Notes r₁ r' ∧ ClassPiece classId ∧
    lowered = {
      pieces := .opcode .newobj :: classId :: callCode key target
      site := .call target m.params.length (some ret)
      callee := calleeOf target }

theorem lowerNewObject_eq (h : l.lowerNewObject m r = .ok lowered r') :
    l.Creates m r lowered r' := by
  obtain ⟨target, r₀, r₁, hcalls, hn₀, h⟩ := target_ok resolveCall_ok h
  have finish : ∀ {classId : Piece} {e : Except CompileError Storage}
      {ret : Storage → Storage} {r₂ : Registry}, Notes r₁ r₂ → ClassPiece classId →
      (do
        let call ← callPieces target
        let storage ← MonadExcept.ofExcept e
        return {
          pieces := .opcode .newobj :: classId :: call
          site := .call target (l.instantiate m).params.length (some (ret storage))
          callee := calleeOf target } : RegistryM LoweredOp) r₂ = .ok lowered r' →
      l.Creates m r lowered r' := by
    intro classId e ret r₂ hn hclass h
    obtain ⟨call, r₃, hcall, h⟩ := state_bind_ok.1 h
    obtain ⟨rfl, key, rfl⟩ := callPieces_ok hcall
    obtain ⟨storage, -, h⟩ := state_ofExcept_bind_ok.1 h
    obtain ⟨rfl, rfl⟩ := state_pure_ok.1 h
    exact ⟨target, key, classId, ret storage, r₀, hcalls, growth_notes.trans hn₀ hn, hclass, rfl⟩
  cases target with
  | user callee =>
    dsimp only at h
    rw [state_modify_bind] at h
    obtain ⟨piece, r₃, hpiece, h⟩ := state_bind_ok.1 h
    obtain ⟨hn, hclass⟩ := classPiece_ok hpiece
    exact finish (growth_notes.trans (Registry.notes_discoverClass _ _ _) hn) hclass h
  | _ => exact finish (growth_notes.refl _) (.inl ⟨0, rfl⟩) h

theorem lowerNewObject_ok (h : l.lowerNewObject m r = .ok lowered r') :
    l.Moves r r' lowered ∧ l.Lowers index (.newObject m) lowered := by
  obtain ⟨target, key, classId, ret, r₁, hcalls, hn, -, rfl⟩ := lowerNewObject_eq h
  exact ⟨.of_notes hcalls hn (by simp), .newObject m target key classId ret⟩

/-- A field is found, recorded and named by its key; its class has instances if they hold it. -/
theorem lowerField_eq (h : l.lowerField isStatic access f r = .ok lowered r') :
    ∃ resolved storage, l.program.resolveField { f with owner := f.owner.substitute l.typeArgs } =
        .ok resolved ∧
      let u := resolved.use l.program isStatic
      Storage.ofType l.program u.type = .ok storage ∧ Notes (r.recordField u) r' ∧ lowered = {
        pieces := [.opcode (fieldOpcode access), .byte (fieldFlags u.inStaticRegion u.host),
          .link (.fieldOffset u.key), if u.host then .link (.descriptorId u.type)
            else if u.isStatic then .word 0 else .link (.classId (l.program.fullName u.declaring))]
        site := .field u.key u.inStaticRegion u.host storage.tag
        wide := narrowedType (some storage) u.type } := by
  obtain ⟨resolved, hresolved, h⟩ := state_ofExcept_bind_ok.1 h
  obtain ⟨storage, hstorage, h⟩ := state_ofExcept_bind_ok.1 h
  refine ⟨resolved, storage, hresolved, hstorage, ?_⟩
  rcases state_ite_ok.1 h with ⟨-, h⟩ | ⟨-, h⟩
  · obtain ⟨rfl, rfl⟩ := state_pure_ok.1 h
    exact ⟨growth_notes.refl _, rfl⟩
  · obtain ⟨rfl, rfl⟩ := state_pure_ok.1 h
    exact ⟨Registry.notes_discoverClass _ _ _, rfl⟩

theorem lowerField_ok (h : l.lowerField isStatic access f r = .ok lowered r') :
    l.Moves r r' lowered ∧ l.Lowers index (.field isStatic access f) lowered := by
  obtain ⟨resolved, storage, -, hstorage, hn, rfl⟩ := lowerField_eq h
  refine ⟨⟨r, _, rfl, .field ⟨storage, hstorage, rfl⟩, hn⟩,
    .field isStatic access f _ _ _ _ _ _ (fun hregion => ?_) ?_⟩
  · simp only [FieldUse.inStaticRegion, ResolvedField.use, Bool.or_eq_true] at hregion ⊢
    exact hregion.imp_left .inl
  · split
    · rfl
    · split <;> rfl

/-- The code of an instruction that needs neither the registry nor a layout: an opcode, and operands that
wait for nothing. -/
structure IsPlain (opcode : Opcode) (lowered : LoweredOp) : Prop where
  callee : lowered.callee = none
  site : lowered.site = .plain
  pieces : ∃ rest, lowered.pieces = .opcode opcode :: rest ∧ ∀ operand, .link operand ∉ rest

theorem elementOp_plain {kind : ElementKind} (h : l.elementOp opcode kind = .ok lowered) :
    IsPlain opcode lowered := by
  cases kind with
  | primitive p | reference => cases h; exact ⟨rfl, rfl, _, rfl, by simp⟩
  | any type =>
    obtain ⟨storage, -, h⟩ := except_bind_ok.1 h
    split at h <;> (rw [except_pure_ok] at h; subst h; exact ⟨rfl, rfl, _, rfl, by simp⟩)

theorem lowerPlain_plain (h : l.lowerPlain index op = .ok lowered) :
    ∃ opcode, IsPlain opcode lowered := by
  have made : ∀ {x : Except CompileError (List Piece)},
      (∀ ps, x = .ok ps → ∃ opcode rest, ps = .opcode opcode :: rest ∧ ∀ operand, .link operand ∉ rest) →
      (do return { pieces := ← x } : Except CompileError LoweredOp) = .ok lowered →
      ∃ opcode, IsPlain opcode lowered := by
    intro x hx h
    obtain ⟨ps, hps, h⟩ := except_bind_ok.1 h
    rw [except_pure_ok] at h
    subst h
    obtain ⟨opcode, rest, hrest⟩ := hx ps hps
    exact ⟨opcode, rfl, rfl, rest, hrest⟩
  cases op with
  | slot area access n =>
    obtain ⟨_, -, h⟩ := except_bind_ok.1 h
    rw [except_pure_ok] at h
    subst h
    cases area <;> cases access <;> exact ⟨_, rfl, rfl, _, rfl, by simp⟩
  | const c => cases c <;> (cases h; exact ⟨_, rfl, rfl, _, rfl, by simp⟩)
  | text s =>
    refine made (fun ps hps => ?_) h
    unfold textPieces at hps
    dsimp only at hps
    split at hps <;> cases hps
    exact ⟨_, _, rfl, by simp⟩
  | switch targets =>
    refine made (fun ps hps => ?_) h
    unfold switchPieces at hps
    split at hps <;> cases hps
    exact ⟨_, _, rfl, by simp⟩
  | callIndirect params returns =>
    refine made (fun ps hps => ?_) h
    unfold indirectPieces at hps
    split at hps <;> cases hps
    exact ⟨_, _, rfl, by simp⟩
  | loadThrough pointee | storeThrough pointee =>
    cases pointee <;> (cases h; exact ⟨_, rfl, rfl, _, rfl, by simp⟩)
  | loadElement kind | storeElement kind => exact ⟨_, elementOp_plain h⟩
  | _ => cases h <;> exact ⟨_, rfl, rfl, _, rfl, by simp⟩

theorem site_of_plain (h : l.lowerPlain index op = .ok lowered) : lowered.site = .plain := by
  obtain ⟨_, hplain⟩ := lowerPlain_plain h
  exact hplain.site

/-- **An instruction that is lowered** gets pieces and a site of its form, and the method that it
calls is compiled. -/
theorem lowerOp_ok (h : l.lowerOp index op r = .ok lowered r') :
    l.Moves r r' lowered ∧ l.Lowers index op lowered := by
  unfold lowerOp at h
  split at h
  · exact lowerMethodAddress_ok h
  · obtain ⟨hn, classId, rfl⟩ := lowerClassOp_ok h
    exact ⟨.of_notes rfl hn (by simp), .initObject _ classId⟩
  · obtain ⟨hn, classId, rfl⟩ := lowerClassOp_ok h
    exact ⟨.of_notes rfl hn (by simp), .castClass _ classId⟩
  · exact lowerNewObject_ok h
  · obtain ⟨hn, rfl⟩ := lowerDescriptorOp_ok h
    exact ⟨.of_notes rfl hn (by simp), .box _⟩
  · obtain ⟨hn, rfl⟩ := lowerDescriptorOp_ok h
    exact ⟨.of_notes rfl hn (by simp), .unbox _⟩
  · obtain ⟨hn, rfl⟩ := lowerDescriptorOp_ok h
    exact ⟨.of_notes rfl hn (by simp), .newArray _⟩
  · obtain ⟨hn, rfl⟩ := lowerDescriptorOp_ok h
    exact ⟨.of_notes rfl hn (by simp), .elementAddress _⟩
  · exact lowerField_ok h
  · exact lowerCall_ok h
  · obtain ⟨hp, rfl⟩ := state_ofExcept_ok.1 h
    obtain ⟨opcode, hplain⟩ := lowerPlain_plain hp
    have hcalls : l.Calls r r lowered.callee := by
      rw [hplain.callee]
      rfl
    exact ⟨.of_notes hcalls (growth_notes.refl r) (by simp [hplain.site]), .plain hp⟩

theorem Lowers.branches_last (h : l.Lowers index op o) :
    ∃ lead, o.pieces = lead ++ op.targets.map .branch := by
  cases h with
  | plain h =>
    cases op with
    | jump t | jumpIf sense t | jumpCmp cmp unsigned t => cases h; exact ⟨[_], rfl⟩
    | switch targets =>
      obtain ⟨pieces, hp, h⟩ := except_bind_ok.1 h
      rw [except_pure_ok] at h
      subst h
      unfold switchPieces at hp
      split at hp
      · cases hp
        exact ⟨[_, _], by rw [Op.targets, map_map]; rfl⟩
      · cases hp
    | leave t => cases h
    | _ => exact ⟨_, (append_nil _).symm⟩
  | _ => exact ⟨_, (append_nil _).symm⟩

theorem Lowers.branch_of_target (h : l.Lowers index op o) :
    ∀ target ∈ op.targets, .branch target ∈ o.pieces := by
  intro target ht
  obtain ⟨lead, hlead⟩ := h.branches_last
  rw [hlead]
  exact mem_append_right _ (mem_map_of_mem ht)

theorem Lowers.callee_of_site (h : l.Lowers index op o) {pops : Nat} {storage : Option Storage}
    (hsite : o.site = .call target pops storage) : o.callee = calleeOf target := by
  cases h with
  | plain h =>
    rw [site_of_plain h] at hsite
    cases hsite
  | _ => cases hsite <;> rfl

theorem Lowers.offset_link (h : l.Lowers i op o) {key : String} {inStaticRegion host : Bool}
    {tag : Tag} (hsite : o.site = .field key inStaticRegion host tag) :
    (2, .fieldOffset key) ∈ Piece.links 0 o.pieces := by
  cases h with
  | plain h =>
    rw [site_of_plain h] at hsite
    cases hsite
  | field =>
    cases hsite
    exact mem_cons_self
  | _ => cases hsite

/-! ## Bodies -/

/-- Instructions that are lowered one after the other; what each leaves open is recorded behind
it. -/
inductive Runs (l : Lowering) :
    List (Instruction × Nat) → List LoweredOp → Registry → Registry → Prop
  | nil (r : Registry) : Runs l [] [] r r
  | cons {item : Instruction × Nat} {items : List (Instruction × Nat)} {lowered : LoweredOp}
    {ops : List LoweredOp} {r r₁ r' : Registry} (moves : l.Moves r r₁ lowered)
    (lowers : l.Lowers item.2 item.1.op lowered)
    (rest : Runs l items ops
      { r₁ with fixups := r₁.fixups ++ l.fixupsOf item.2 lowered.pieces } r') :
    Runs l (item :: items) (lowered :: ops) r r'

/-- What the instructions of a body have become. -/
def LoweredBody.ofOps (body : LoweredBody) (ops : List LoweredOp) : LoweredBody where
  pieces := body.pieces ++ ops.map (·.pieces)
  sites := body.sites ++ ops.map (·.site)
  callees := ops.foldl (fun callees o => addCallee callees o.callee) body.callees
  wide := ops.foldl (fun wide o => wide <|> o.wide) body.wide

theorem lowerNext_run : ∀ {items : List (Instruction × Nat)}
    {body body' : LoweredBody} {r r' : Registry},
    items.foldlM l.lowerNext body r = .ok body' r' →
    ∃ ops, l.Runs items ops r r' ∧ body' = LoweredBody.ofOps body ops
  | [], body, body', r, r', h => by
    obtain ⟨rfl, rfl⟩ := h
    exact ⟨[], .nil r, by simp [LoweredBody.ofOps]⟩
  | item :: items, body, body', r, r', h => by
    obtain ⟨body₁, r₁, hnext, h⟩ := state_bind_ok.1 h
    obtain ⟨lowered, r₂, hlower, hnext⟩ := state_bind_ok.1 hnext
    obtain ⟨_, r₃, hfix, hnext⟩ := state_bind_ok.1 hnext
    rw [state_modify_ok] at hfix
    obtain ⟨rfl, rfl⟩ := state_pure_ok.1 hnext
    obtain ⟨ops, hruns, rfl⟩ := lowerNext_run h
    obtain ⟨hmoves, hlowers⟩ := lowerOp_ok hlower
    rw [← hfix] at hruns
    refine ⟨lowered :: ops, .cons hmoves hlowers hruns, ?_⟩
    simp [LoweredBody.ofOps]

/-- **A body that is lowered**: instruction by instruction. -/
theorem lowerBody_ok {body : LoweredBody} (h : l.lowerBody r = .ok body r') :
    ∃ ops, l.Runs l.code.toList.zipIdx ops r r' ∧ body = LoweredBody.ofOps {} ops :=
  lowerNext_run h

end Lowering

end DeviceCode
