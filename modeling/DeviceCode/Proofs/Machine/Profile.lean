import DeviceCode.Proofs.Machine.Position

/-!
# The machine keeps to the stack profile

`Machine.OnProfile`: a frame stands before an instruction that the profile of its method reaches, with
as many operands as the profile says. Main statement: `runs_on_profile`, every frame of every run of a
build does, if its calls take and leave what they say they do. So no run ends with an underflow or an
overflow of the operand stack, with a callee that is not there, or with code that ends inside an
instruction.

The proof goes frame by frame: `Machine.Sound` says that the running frame is on its profile and that
every waiting one will be, once it gets the result of what it waits for. `step_sound` keeps it.
-/

namespace DeviceCode

open Registry

open MachineOp

variable {mop : MachineOp} {callers : List Caller} {callee : MethodRef} {next : Nat}
  {s : MachineState} {e : RunError}

namespace Registry

/-- The site of an operation agrees with what the operation does to the stack: a call takes the
arguments of what it reaches and leaves its result, and an access to a field of an object reaches
no static field. -/
def siteAgrees (builtins : BuiltinTable) (methods : Array CompiledMethod) : Op → Site → Bool
  | .call _ m, .call (.user k) _ _ => methods[k]?.all fun callee =>
    m.pops == callee.args.slots.size && m.pushes == callee.ret.isSome.toNat
  | .call _ m, .call (.builtin id) _ _ => (builtins.get? id).all fun b =>
    m.pops == Library.arity b.signature && m.pushes == 1
  | .field false .load _, .field _ inStaticRegion _ _ => !inStaticRegion
  | .field false .store _, .field _ inStaticRegion _ _ => !inStaticRegion
  | _, _ => true

/-- The operations of a method and their sites. -/
def operations (c : BuildContext) (m : CompiledMethod) : List (Op × Site) :=
  match (c.program.methodDef? m.method).bind (·.body) with
  | none => []
  | some body => (body.code.toList.map (·.op)).zip m.sites.toList

theorem mem_operations {c : BuildContext} {m : CompiledMethod} {d : MethodDef} {body : Body}
    (hd : c.program.methodDef? m.method = some d) (hbody : d.body = some body) {i : Nat}
    {instruction : Instruction} {site : Site} (hi : body.code[i]? = some instruction)
    (hsite : m.sites[i]? = some site) : (instruction.op, site) ∈ operations c m := by
  rw [operations, hd, Option.bind_some, hbody]
  refine List.mem_of_getElem? (i := i) ?_
  rw [List.getElem?_zip_eq_some, List.getElem?_map, Array.getElem?_toList, Array.getElem?_toList, hi]
  exact ⟨rfl, hsite⟩

/-- The sites of all methods agree with their operations. -/
def sitesAgree (c : BuildContext) (r : Registry) : Bool :=
  r.methods.all fun m => (operations c m).all fun e => siteAgrees c.builtins r.methods e.1 e.2

end Registry

namespace Machine

theorem Tag.id_ne_voidTag (tag : Tag) : tag.id ≠ voidTag := by
  cases tag <;> decide

theorem resultTag_eq_voidTag {ret : Option Storage} :
    Storage.resultTag ret = voidTag ↔ ret = none := by
  cases ret with
  | none => simp [Storage.resultTag]
  | some s => simp [Storage.resultTag, Tag.id_ne_voidTag]

/-! ## Instructions that stay in their frame -/

/-- The position is one that the profile reaches with `n` operands. -/
def StandsWith (v : MethodView) (pc n : Nat) : Prop :=
  Stands v (fun i => v.entry.profile.depth? i = some n) pc

/-- The instruction of the machine does to the stack what the operation does, and goes on where the
profile expects it. -/
structure Mirrors (m : Machine) (v : MethodView) (i n next : Nat) (op : Op) (mop : MachineOp) :
    Prop where
  effect : m.effect v.method mop = v.effect i op
  exits : ∀ pc ∈ exits v.method.code next mop, StandsWith v pc (StackProfile.after v.effect i op n)
  stays : ∀ k, mop ≠ .call k

section
variable {m : Machine} {c : BuildContext} {r : Registry} {t : TypeTables} {index : Nat}
  {v : MethodView} (h : m.MethodAt c r t index v) {i n offset : Nat} {instruction : Instruction}
  {o : LoweredOp} (hat : v.InstructionAt i n offset instruction o)
include h hat

theorem MethodAt.mirrors_of_next (heffect : m.effect v.method mop = v.effect i instruction.op)
    (hexits : ∀ next, exits v.method.code next mop = [next])
    (hflow : instruction.op.endsFlow = false) (hstays : ∀ k, mop ≠ .call k) :
    m.Mirrors v i n (offset + Piece.totalSize o.pieces) instruction.op mop :=
  ⟨heffect, h.exits_of_next hat.toOperationAt (fun _ => h.successor hat) hexits hflow, hstays⟩

theorem MethodAt.mirrors_plain (hop : MachineOp.ofPlain? v.branchWord instruction.op = some mop) :
    m.Mirrors v i n (offset + Piece.totalSize o.pieces) instruction.op mop := by
  have hexits := h.exits_of_plain hat.toOperationAt (fun _ => h.successor hat) hop
  obtain ⟨op, line⟩ := instruction
  cases op with
  | ret =>
    cases hop
    refine ⟨?_, hexits, by simp⟩
    have hret : v.method.retTag = voidTag ↔ v.entry.ret = none := by
      rw [h.record.retTag, resultTag_eq_voidTag]
    simp only [Machine.effect, MethodView.effect, effectOf, Op.effect, hret]
    cases v.entry.ret <;> rfl
  | _ =>
    cases hop <;> exact ⟨rfl, hexits, by simp⟩

theorem MethodAt.siteAgrees (hagree : r.sitesAgree c = true) :
    Registry.siteAgrees c.builtins r.methods instruction.op o.site = true := by
  obtain ⟨hlt, hentry⟩ := Array.getElem?_eq_some_iff.1 h.entry
  have hmethod := Array.all_eq_true.1 hagree index hlt
  rw [hentry] at hmethod
  exact List.all_eq_true.1 hmethod (instruction.op, o.site)
    (mem_operations h.installed.method h.installed.source hat.there hat.site)

end

/-! ## States -/

section
variable (m : Machine) (c : BuildContext) (r : Registry) (t : TypeTables)

/-- The frame will stand on the profile of its method once it has `more` operands, and there is room
for them. -/
def FrameStands (f : Frame) (more : Nat) : Prop :=
  ∃ v, m.MethodAt c r t f.method v ∧ StandsWith v f.pc (f.stack.size + more) ∧
    f.stack.size + more ≤ v.method.maxStack.toNat

/-- The values that the return from a method gives. -/
def results (index : Nat) : Nat := (r.methods[index]?.any (·.ret.isSome)).toNat

/-- Every frame waits for the result of the one before it. -/
def Waiting : (callee : Nat) → List Caller → Prop
  | _, [] => True
  | callee, caller :: callers =>
    m.FrameStands c r t caller.frame (results r callee) ∧ Waiting caller.frame.method callers

/-- The running frame stands on its profile, and so will all that wait. -/
structure Sound (s : MachineState) : Prop where
  frame : m.FrameStands c r t s.frame 0
  callers : m.Waiting c r t s.frame.method s.callers

/-- The error is about values and limits, or says that the code of a method ended. -/
def Allowed (e : RunError) : Prop :=
  e.IsOrdinary ∨ ∃ index method,
    m.image.methods[index]? = some method ∧ e = .truncated ⟨index, method.code.size⟩

/-- A run is sound and has not failed but for an allowed error. -/
def SoundProgress : Progress → Prop
  | .running s => m.Sound c r t s
  | .returned _ _ => True
  | .failed e _ => m.Allowed e

end

section
variable {m : Machine} {c : BuildContext} {r : Registry} {t : TypeTables}

theorem waiting_nil {callee : Nat} : m.Waiting c r t callee [] := trivial

theorem invoke_sound (hbuild : m.RunsBuild c r t) {index : Nat} (hi : index < m.image.methods.size)
    (args : SlotArea) (hcallers : m.Waiting c r t index callers) (statics : SlotArea) :
    m.SoundProgress c r t (m.invoke index args callers statics) := by
  unfold invoke
  split
  · exact .inl trivial
  · obtain ⟨v, h⟩ := hbuild.methodAt (hbuild.size ▸ hi)
    simp only [h.loaded]
    exact ⟨⟨v, h, h.stands_start h.describes.start, Nat.zero_le _⟩, hcallers⟩

theorem returnTo_sound {callee : Nat} (hcallers : m.Waiting c r t callee callers)
    {value : Option Value} (hvalue : value.isSome.toNat = results r callee)
    (args statics : SlotArea) : m.SoundProgress c r t (m.returnTo callers value args statics) := by
  cases callers with
  | nil => exact trivial
  | cons caller callers =>
    obtain ⟨⟨v, h, hstands, hroom⟩, hrest⟩ := hcallers
    rw [← hvalue] at hstands hroom
    cases value with
    | none => exact ⟨⟨v, h, hstands, hroom⟩, hrest⟩
    | some result =>
      have hroom : caller.frame.stack.size + 1 ≤ v.method.maxStack.toNat := hroom
      have hpush := caller.frame.push_leaves ⟨caller.frame.method, caller.site⟩ v.method.maxStack result
      unfold returnTo
      simp only [h.loaded]
      cases hp : caller.frame.push v.method.maxStack ⟨caller.frame.method, caller.site⟩ result with
      | error err =>
        rw [hp] at hpush
        exact absurd hpush.2 (by omega)
      | ok f =>
        rw [hp] at hpush
        refine ⟨⟨v, hpush.method ▸ h, ?_, ?_⟩, hpush.method ▸ hrest⟩
        · rw [hpush.pc, hpush.size]
          exact hstands
        · rw [hpush.size]
          exact hroom

section
variable {v : MethodView} (h : m.MethodAt c r t s.frame.method v)
include h

theorem step_sound_of_refused {name : String}
    (hdecode : MachineOp.decode? v.method.code s.frame.pc = some (.unsupported name, next)) :
    m.SoundProgress c r t (m.step s) := by
  unfold step
  simp only [h.loaded, hdecode]
  exact .inl trivial

variable (hcallers : m.Waiting c r t s.frame.method s.callers) (hbuild : m.RunsBuild c r t)
include hcallers hbuild

/-- A step that stays on the profile: no operand is missing, there is room for all results, and
every way out leads to a position that the profile knows. -/
theorem step_sound_of_stands (hdecode : MachineOp.decode? v.method.code s.frame.pc = some (mop, next))
    (htakes : (m.effect v.method mop).1 ≤ s.frame.stack.size)
    (hroom : s.frame.stack.size - (m.effect v.method mop).1 + (m.effect v.method mop).2 ≤
      v.method.maxStack.toNat) (hexits : ∀ pc ∈ exits v.method.code next mop,
      StandsWith v pc (s.frame.stack.size - (m.effect v.method mop).1 + (m.effect v.method mop).2))
    (hcall : ∀ k, mop = .call k → k < r.methods.size ∧
      StandsWith v next (s.frame.stack.size - (m.effect v.method mop).1 + results r k) ∧
      s.frame.stack.size - (m.effect v.method mop).1 + results r k ≤ v.method.maxStack.toNat) :
    m.SoundProgress c r t (m.step s) := by
  have hperform : Ensures RunError.IsOrdinary (m.Performs v.method { s.frame with pc := next } mop)
      (m.perform v.method ⟨s.frame.method, s.frame.pc⟩ { s.frame with pc := next } s.statics mop) :=
    perform_ensures (fun k hk => hbuild.size ▸ (hcall k hk).1) htakes hroom
  unfold step
  simp only [h.loaded, hdecode]
  cases hp : m.perform v.method ⟨s.frame.method, s.frame.pc⟩ { s.frame with pc := next } s.statics
    mop with
  | error err =>
    rw [hp] at hperform
    exact .inl hperform
  | ok effect =>
    rw [hp] at hperform
    cases effect with
    | next f statics =>
      obtain ⟨hmethod, hpc, hsize⟩ := hperform
      refine ⟨⟨v, hmethod ▸ h, ?_, ?_⟩, hmethod ▸ hcallers⟩
      · rw [hsize]
        exact hexits _ hpc
      · rw [hsize]
        exact hroom
    | ret result args =>
      obtain ⟨rfl, hresult⟩ := hperform
      refine returnTo_sound hcallers ?_ args s.statics
      rw [results, h.entry, Option.any_some, hresult, h.record.retTag]
      cases hret : v.entry.ret with
      | none | some storage => simp [resultTag_eq_voidTag]
    | call f callee args =>
      obtain ⟨hop, hlt, hf⟩ := hperform
      obtain ⟨-, hstands, hroom⟩ := hcall callee hop
      have hmethod : f.method = s.frame.method := hf.method
      have hframe : m.FrameStands c r t f (results r callee) := by
        refine ⟨v, hmethod ▸ h, ?_, ?_⟩
        · rw [hf.pc, hf.size]
          exact hstands
        · rw [hf.size]
          exact hroom
      have hwaiting : m.Waiting c r t callee (⟨f, s.frame.pc⟩ :: s.callers) :=
        ⟨hframe, hmethod ▸ hcallers⟩
      exact invoke_sound hbuild hlt args hwaiting s.statics

variable {i offset : Nat} {instruction : Instruction} {o : LoweredOp}
  (hat : v.InstructionAt i s.frame.stack.size offset instruction o)
include hat

theorem step_sound_of_mirrors
    (hdecode : MachineOp.decode? v.method.code s.frame.pc = some (mop, next))
    (hmirrors : m.Mirrors v i s.frame.stack.size next instruction.op mop) :
    m.SoundProgress c r t (m.step s) := by
  have hfits := h.fits hat
  have hafter := hfits.leaves
  refine step_sound_of_stands h hcallers hbuild hdecode ?_ ?_ ?_ fun k hk =>
    absurd hk (hmirrors.stays k)
  · rw [hmirrors.effect]
    exact hfits.takes
  · rw [hmirrors.effect, h.maxStack]
    exact hafter
  · rw [hmirrors.effect]
    exact hmirrors.exits

theorem step_sound_of_lead (hop : instruction.op = .call true callee) (hpc : s.frame.pc = offset)
    (hlead : MachineOp.byteAt? v.method.code offset = some Opcode.callvirtDirect.byte) :
    m.SoundProgress c r t (m.step s) := by
  have hbefore := (h.fits hat).before
  refine step_sound_of_stands h hcallers hbuild (hpc ▸ decode?_of_byteAt? hlead)
    (Nat.zero_le _) ?_ (fun pc hpc' => ?_) (by simp)
  · rw [h.maxStack]
    exact hbefore
  · have hpc' : pc = offset + 1 := by simpa [exits, hpc] using hpc'
    exact .inr ⟨i, offset, instruction, o, hat.toOperationAt, hat.depth,
      .inr ⟨hpc', hlead, callee, hop⟩⟩

variable (hagree : r.sitesAgree c = true)

section
variable {isVirtual : Bool} (hop : instruction.op = .call isVirtual callee)
include hop

theorem step_sound_of_call {k : Nat} (hdecode : MachineOp.decode? v.method.code s.frame.pc =
      some (.call k, offset + Piece.totalSize o.pieces)) (hk : k < r.methods.size)
    (hagrees : ∀ target, r.methods[k]? = some target →
      callee.pops = target.args.slots.size ∧ callee.pushes = target.ret.isSome.toNat) :
    m.SoundProgress c r t (m.step s) := by
  have hfits := h.fits hat
  have htakes := hfits.takes
  have hafter := hfits.leaves
  have hnext : StandsWith v _ _ :=
    h.stands_next hat.toOperationAt (fun _ => h.successor hat) (by rw [hop]; rfl)
  have heffect : v.effect i instruction.op = (callee.pops, callee.pushes) := by
    rw [hop]
    rfl
  unfold StackProfile.after at hafter hnext
  rw [heffect] at hafter htakes hnext
  -- the machine takes as many arguments as the operation, and the operation counts the result
  obtain ⟨v', h'⟩ := hbuild.methodAt hk
  obtain ⟨hpops, hpushes⟩ := hagrees v'.entry h'.entry
  have hresults : results r k = callee.pushes := by
    rw [results, h'.entry, Option.any_some, hpushes]
  have hcall : m.effect v.method (.call k) = (callee.pops, 0) := by
    rw [Machine.effect, h'.loaded, Option.map_some, Option.getD_some, hpops,
      ← h'.record.args.length_eq, Array.length_toList]
  refine step_sound_of_stands h hcallers hbuild hdecode ?_ ?_ ?_ fun k' hk' => ?_
  · rw [hcall]
    exact htakes
  · rw [hcall, h.maxStack]
    omega
  · intro pc hpc
    simp [exits] at hpc
  · cases hk'
    rw [hcall, hresults, h.maxStack]
    exact ⟨hk, hnext, hafter⟩

theorem step_sound_of_callBuiltin {id : UInt16}
    (hdecode : MachineOp.decode? v.method.code s.frame.pc =
      some (.callBuiltin id, offset + Piece.totalSize o.pieces))
    (hagrees : ∀ b, c.builtins.get? id = some b →
      callee.pops = Library.arity b.signature ∧ callee.pushes = 1) :
    m.SoundProgress c r t (m.step s) := by
  cases hb : c.builtins.get? id with
  | none =>
    unfold step
    simp only [h.loaded, hdecode, perform, callBuiltin, hbuild.builtins, hb]
    exact .inl trivial
  | some b =>
    obtain ⟨hpops, hpushes⟩ := hagrees b hb
    refine step_sound_of_mirrors h hcallers hbuild hat hdecode
      (h.mirrors_of_next hat ?_ (fun _ => rfl) (by rw [hop]; rfl) (by simp))
    rw [Machine.effect, hbuild.builtins, hb, Option.map_some, ← hpops, ← hpushes,
      hop]
    rfl

include hagree

theorem step_sound_of_called {target : CallTarget} {pops : Nat} {storage : Option Storage}
    (hsite : o.site = .call target pops storage) (hpc : s.frame.pc = offset + isVirtual.toNat)
    (hdecode : MachineOp.decode? v.method.code (offset + isVirtual.toNat) =
      some (mop, offset + Piece.totalSize o.pieces)) (hmop : (∃ k, target = .user k ∧ mop = .call k) ∨
      ∃ id, target = .builtin id ∧ mop = .callBuiltin id) :
    m.SoundProgress c r t (m.step s) := by
  have hagrees := h.siteAgrees hat hagree
  rw [hop, hsite] at hagrees
  rw [← hpc] at hdecode
  obtain ⟨k, rfl, rfl⟩ | ⟨id, rfl, rfl⟩ := hmop
  · refine step_sound_of_call h hcallers hbuild hat hop hdecode (h.callee_lt hat.toOperationAt hsite)
      fun target htarget => ?_
    simpa [siteAgrees, htarget] using hagrees
  · refine step_sound_of_callBuiltin h hcallers hbuild hat hop hdecode fun b hb => ?_
    simpa [siteAgrees, hb] using hagrees

end

include hagree

theorem step_sound_at_offset (hpc : s.frame.pc = offset) :
    m.SoundProgress c r t (m.step s) := by
  have hdecoded := h.decoded hat.toOperationAt
  have hagrees := h.siteAgrees hat hagree
  have mirrors : ∀ {mop : MachineOp},
      decode? v.method.code offset = some (mop, offset + Piece.totalSize o.pieces) →
      m.Mirrors v i s.frame.stack.size (offset + Piece.totalSize o.pieces) instruction.op mop →
      m.SoundProgress c r t (m.step s) := by
    intro mop hdecode hmirrors
    exact step_sound_of_mirrors h hcallers hbuild hat (hpc ▸ hdecode) hmirrors
  obtain ⟨op, line⟩ := instruction
  generalize hs : o.site = site at hdecoded hagrees
  cases hdecoded with
  | plain simple decoded => exact mirrors decoded (h.mirrors_plain hat simple)
  | load slot decoded | store slot decoded =>
    exact mirrors decoded (h.mirrors_of_next hat rfl (fun _ => rfl) rfl (by simp))
  | switch decoded table => exact mirrors decoded ⟨rfl, h.exits_of_switch hat.toOperationAt
    (fun _ => h.successor hat) rfl table, by simp⟩
  | @loadStatic isStatic f key host tag decoded | @storeStatic isStatic f key host tag decoded =>
    cases isStatic with
    | false => simp [siteAgrees] at hagrees
    | true => exact mirrors decoded (h.mirrors_of_next hat rfl (fun _ => rfl) rfl (by simp))
  | @call isVirtual callee k pops storage lead decoded =>
    cases isVirtual with
    | false =>
      exact step_sound_of_called h hcallers hbuild hat hagree rfl hs hpc decoded
        (.inl ⟨k, rfl, rfl⟩)
    | true => exact step_sound_of_lead h hcallers hbuild hat rfl hpc (lead rfl)
  | @callBuiltin isVirtual callee id pops storage lead decoded =>
    cases isVirtual with
    | false =>
      exact step_sound_of_called h hcallers hbuild hat hagree rfl hs hpc decoded
        (.inr ⟨id, rfl, rfl⟩)
    | true => exact step_sound_of_lead h hcallers hbuild hat rfl hpc (lead rfl)
  | refused decoded => exact step_sound_of_refused h (hpc ▸ decoded)

theorem step_sound_behind_lead (hop : instruction.op = .call true callee)
    (hpc : s.frame.pc = offset + 1)
    (hlead : MachineOp.byteAt? v.method.code offset = some Opcode.callvirtDirect.byte) :
    m.SoundProgress c r t (m.step s) := by
  have hdecoded := h.decoded hat.toOperationAt
  rw [hop] at hdecoded
  generalize hs : o.site = site at hdecoded
  cases hdecoded with
  | plain simple decoded => cases simple
  | @call _ _ k _ _ lead decoded =>
    exact step_sound_of_called h hcallers hbuild hat hagree hop hs hpc decoded
      (.inl ⟨k, rfl, rfl⟩)
  | @callBuiltin _ _ id _ _ lead decoded =>
    exact step_sound_of_called h hcallers hbuild hat hagree hop hs hpc decoded
      (.inr ⟨id, rfl, rfl⟩)
  | refused decoded =>
    -- the machine takes the lead byte
    rw [decode?_of_byteAt? hlead] at decoded
    cases decoded

end

variable (hbuild : m.RunsBuild c r t) (hagree : r.sitesAgree c = true)
include hbuild hagree

/-- **A step of the machine keeps every frame on its profile.** -/
theorem step_sound (hs : m.Sound c r t s) : m.SoundProgress c r t (m.step s) := by
  obtain ⟨v, h, hstands, -⟩ := hs.frame
  rcases hstands with hend | ⟨i, offset, instruction, o, hop, hdepth, hpc⟩
  · have hdecode : decode? v.method.code s.frame.pc = none := by
      simp [decode?, byteAt?, hend]
    unfold step
    simp only [h.loaded, hdecode]
    exact .inr ⟨s.frame.method, v.method, h.loaded, by rw [hend]⟩
  · have hat : v.InstructionAt i s.frame.stack.size offset instruction o := ⟨hop, hdepth⟩
    rcases hpc with hpc | ⟨hpc, hlead, callee, hcall⟩
    · exact step_sound_at_offset h hs.callers hbuild hat hagree hpc
    · exact step_sound_behind_lead h hs.callers hbuild hat hagree hcall hpc hlead

theorem execute_sound : ∀ {bound : Nat} {p : Progress}, m.SoundProgress c r t p →
      (m.execute bound p).1 = .error e → m.Allowed e
  | _, .returned _ _, _, herror => by
    unfold execute at herror
    cases herror
  | _, .failed _ _, hp, herror => by
    unfold execute at herror
    cases herror
    exact hp
  | 0, .running _, _, herror => by
    cases herror
    exact .inl trivial
  | bound + 1, .running _, hs, herror => by
    exact execute_sound (step_sound hbuild hagree hs) herror

end

/-! ## Runs -/

/-- The states that the machine passes through when it runs a method on some arguments. -/
inductive Reached (m : Machine) (index : Nat) (args : SlotArea) : MachineState → Prop
  | start {s : MachineState} (invoked : m.invoke index args [] m.statics = .running s) :
    Reached m index args s
  | step {s s' : MachineState} (reached : Reached m index args s) (next : m.step s = .running s') :
    Reached m index args s'

/-- The frame stands at the end of its code, or before an instruction that the profile of its method
reaches, with as many operands as the profile says. Behind the byte that leads in a direct virtual
call it still stands before that instruction. -/
def OnProfile (m : Machine) (r : Registry) (f : Frame) : Prop :=
  ∃ entry method, r.methods[f.method]? = some entry ∧ m.image.methods[f.method]? = some method ∧
    (f.pc = method.code.size ∨
      ∃ i depth offset, entry.profile.depth? i = some depth ∧ entry.offset? i = some offset ∧
        (f.pc = offset ∨ f.pc = offset + 1 ∧
          method.code[offset]? = some Opcode.callvirtDirect.byte) ∧
        f.stack.size = depth)

/-- The errors that a run of a method can end with: none about the operand stack or about a callee,
and none about the end of the code but at the end of the code of a method. -/
def MayFail (m : Machine) (index : Nat) : RunError → Prop
  | .stackUnderflow _ | .stackOverflow _ => False
  | .noSuchMethod callee => callee = index ∧ m.image.methods.size ≤ index
  | .truncated place =>
    ∃ method, m.image.methods[place.method]? = some method ∧ place.offset = method.code.size
  | _ => True

section
variable {m : Machine} {c : BuildContext} {r : Registry} {t : TypeTables} {index : Nat} {args : SlotArea}

theorem Reached.lt (h : m.Reached index args s) :
    index < m.image.methods.size := by
  induction h with
  | start invoked =>
    by_contra hlt
    have hnone : m.image.methods[index]? = none := Array.getElem?_eq_none (by omega)
    unfold invoke at invoked
    rw [hnone] at invoked
    split at invoked <;> cases invoked
  | step reached next ih => exact ih

theorem Sound.onProfile (h : m.Sound c r t s) : m.OnProfile r s.frame := by
  obtain ⟨v, hv, hstands, -⟩ := h.frame
  refine ⟨v.entry, v.method, hv.entry, hv.loaded, ?_⟩
  rcases hstands with hend | ⟨i, offset, instruction, o, hat, hdepth, hpc⟩
  · exact .inl hend
  · refine .inr ⟨i, s.frame.stack.size, offset, hdepth, hat.offset, ?_, rfl⟩
    rcases hpc with hpc | ⟨hpc, hlead, -⟩
    · exact .inl hpc
    · exact .inr ⟨hpc, hlead⟩

theorem Allowed.mayFail (h : m.Allowed e) : m.MayFail index e := by
  rcases h with hordinary | ⟨k, method, hmethod, rfl⟩
  · cases e <;> first | exact trivial | exact hordinary.elim
  · exact ⟨method, hmethod, rfl⟩

variable (hbuild : m.RunsBuild c r t) (hagree : r.sitesAgree c = true)
include hbuild hagree

theorem Reached.sound (hi : index < m.image.methods.size) (h : m.Reached index args s) :
    m.Sound c r t s := by
  induction h with
  | start invoked =>
    have hstart := invoke_sound hbuild hi args waiting_nil m.statics
    rw [invoked] at hstart
    exact hstart
  | step reached next ih =>
    have hstep := step_sound hbuild hagree ih
    rw [next] at hstep
    exact hstep

theorem mayFail_of_run {args : List Value} (h : (m.run index args).1 = .error e) :
    m.MayFail index e := by
  unfold run at h
  split at h
  · rename_i hnone
    cases h
    exact ⟨rfl, Array.getElem?_eq_none_iff.1 hnone⟩
  · rename_i method hmethod
    have hi := (Array.getElem?_eq_some_iff.1 hmethod).1
    split at h
    · cases h
      exact trivial
    · have hfill := fillArguments_ensures index method.args args
      split at h
      · rename_i herror
        rw [herror] at hfill
        cases h
        exact Allowed.mayFail (.inl hfill)
      · rename_i area _
        have hstart := invoke_sound hbuild hi area waiting_nil m.statics
        exact (execute_sound hbuild hagree hstart h).mayFail

end

/-- **Every run keeps to the stack profile.** The image of a build whose sites agree with their
operations can be read, and on it the machine, with any limits and any static region, enters no
instruction that the profile of its method does not reach and none with another number of operands,
whatever method it runs on whatever arguments. -/
theorem runs_on_profile {c : BuildContext} {start : MethodRef} {entry : Nat} {linked : Linked}
    {r : Registry} {b : Build} (hcompile : c.compileAndLink start {} = .ok (entry, linked) r)
    (hbuild : Build.ofLinked c r linked entry = .ok b) (hagree : r.sitesAgree c = true) :
    ∃ image, LoadedImage.read b.bytes.toArray = .ok image ∧
      ∀ m : Machine, m.image = image → m.builtins = c.builtins → ∀ index,
        (∀ args s, m.Reached index args s → m.OnProfile r s.frame) ∧
          ∀ args e, (m.run index args).1 = .error e → m.MayFail index e := by
  obtain ⟨image, himage, hread⟩ := Image.exists_of_build hbuild
  refine ⟨image.loaded, hread, fun m hm hbuiltins index => ?_⟩
  obtain ⟨t, -, -, hruns⟩ := runsBuild_of_image hcompile himage hm hbuiltins
  exact ⟨fun args s hs => (hs.sound hruns hagree hs.lt).onProfile,
    fun args e he => mayFail_of_run hruns hagree he⟩

/-- A program with a loop around a recursive call, and with a direct virtual call. -/
def factorials : BuildContext where
  program := {
    types := #[{ name := "P", methods := [⟨0⟩, ⟨1⟩, ⟨2⟩]
                 fields := [{ name := "last", type := .primitive .i32, isStatic := true }] }]
    methods := #[
      { name := "Main", declaring := ⟨0⟩, params := [.primitive .i32], ret := .primitive .i32
        isStatic := true
        body := some { code := #[{ op := .slot .arguments .load 0 },
          { op := .call false ⟨.named ⟨0⟩ [], "Factorial", [.primitive .i32], .primitive .i32, false⟩ },
          { op := .field true .store ⟨.named ⟨0⟩ [], "last"⟩ },
          { op := .slot .arguments .load 0 }, { op := .const (.i4 1) }, { op := .binary .sub },
          { op := .dup }, { op := .slot .arguments .store 0 }, { op := .jumpIf true 0 },
          { op := .null }, { op := .field true .load ⟨.named ⟨0⟩ [], "last"⟩ },
          { op := .call true ⟨.named ⟨0⟩ [], "Twice", [.primitive .i32], .primitive .i32, true⟩ },
          { op := .ret }] } },
      { name := "Factorial", declaring := ⟨0⟩, params := [.primitive .i32]
        ret := .primitive .i32, isStatic := true
        body := some { code := #[{ op := .slot .arguments .load 0 }, { op := .jumpIf true 4 },
          { op := .const (.i4 1) }, { op := .ret }, { op := .slot .arguments .load 0 },
          { op := .dup }, { op := .const (.i4 1) }, { op := .binary .sub },
          { op := .call false ⟨.named ⟨0⟩ [], "Factorial", [.primitive .i32], .primitive .i32, false⟩ },
          { op := .binary .mul }, { op := .ret }] } },
      { name := "Twice", declaring := ⟨0⟩, params := [.primitive .i32], ret := .primitive .i32
        body := some { code := #[{ op := .slot .arguments .load 1 }, { op := .dup },
          { op := .binary .add }, { op := .ret }] } }] }

def factorialsEntry : MethodRef :=
  ⟨.named ⟨0⟩ [], "Main", [.primitive .i32], .primitive .i32, false⟩

def factorialsRegistry : Registry := stateAfter (factorials.compileAndLink factorialsEntry) {}

theorem factorials_on_profile :
    ∃ entry linked b,
      factorials.compileAndLink factorialsEntry {} = .ok (entry, linked) factorialsRegistry ∧
      Build.ofLinked factorials factorialsRegistry linked entry = .ok b ∧
      factorialsRegistry.sitesAgree factorials = true ∧
      ∃ image, LoadedImage.read b.bytes.toArray = .ok image ∧
        ∀ m : Machine, m.image = image → m.builtins = factorials.builtins → ∀ index,
          (∀ args s, m.Reached index args s → m.OnProfile factorialsRegistry s.frame) ∧
            ∀ args e, (m.run index args).1 = .error e → m.MayFail index e := by
  have hagree : factorialsRegistry.sitesAgree factorials = true := by decide +kernel
  obtain ⟨entry, linked, b, hrun, hb, -⟩ :=
    @Build.exists_of_any factorials factorialsEntry (fun _ _ => true) (by decide +kernel)
  exact ⟨entry, linked, b, hrun, hb, hagree, runs_on_profile hrun hb hagree⟩

end Machine

end DeviceCode
