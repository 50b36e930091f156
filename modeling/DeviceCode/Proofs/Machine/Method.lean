import DeviceCode.Proofs.Image.Linked
import DeviceCode.Proofs.Machine.Decoded
import DeviceCode.Proofs.StackProfile

/-!
# Methods of a build in the machine

`Machine.RunsBuild`: the machine has the image of a linked build. A method of it is known from the
registry, from its body and from the image; `MethodView` holds these sides together, and
`Machine.MethodAt` says that they belong to one method. `MethodView.OperationAt` does the same for an
instruction of the body, and `MethodAt.decoded` says what the machine decodes for it. For an instruction
that the profile of the method reaches (`MethodView.InstructionAt`), `MethodAt.successor` says how many
operands its successors find.
-/

namespace DeviceCode

/-- The sides of a method: its image, its entry in the registry, its definition and its body, and how
the body was lowered and linked. -/
structure MethodView where
  method : LoadedMethod
  entry : CompiledMethod
  definition : MethodDef
  body : Body
  lowering : Lowering
  ops : List LoweredOp
  value : Nat → Nat → LinkOperand → UInt16

namespace MethodView

/-- The word of a branch to an instruction. -/
def branchWord (v : MethodView) : Nat → UInt16 := Chunk.branchWord (v.ops.map (·.pieces))

/-- What the instructions take from the stack and leave on it. -/
def effect (v : MethodView) : Nat → Op → Nat × Nat := Registry.effectOf v.entry

/-- An instruction, its operation and its offset. -/
structure OperationAt (v : MethodView) (i offset : Nat) (instruction : Instruction) (o : LoweredOp) :
    Prop where
  there : v.body.code[i]? = some instruction
  op : v.ops[i]? = some o
  site : v.entry.sites[i]? = some o.site
  offset : v.entry.offset? i = some offset
  lowers : v.lowering.Lowers i instruction.op o

/-- An instruction that is reached with `n` operands. -/
structure InstructionAt (v : MethodView) (i n offset : Nat) (instruction : Instruction)
    (o : LoweredOp) : Prop extends OperationAt v i offset instruction o where
  depth : v.entry.profile.depth? i = some n

end MethodView

namespace Machine

/-- The machine runs the image of a linked build. -/
structure RunsBuild (m : Machine) (c : BuildContext) (r : Registry) (t : TypeTables) : Prop where
  builtins : m.builtins = c.builtins
  methods : List.Forall₂ (fun e q => Image.IsMethod t.layout e q.toMethodRecord)
    r.methods.toList m.image.methods.toList
  installed : ∀ i < r.methods.size, ∃ e d body l ops value,
    r.methods[i]? = some e ∧ Registry.Installed c r t e d body l ops value

/-- The sides of the method with an index. -/
structure MethodAt (m : Machine) (c : BuildContext) (r : Registry) (t : TypeTables) (index : Nat)
    (v : MethodView) : Prop where
  loaded : m.image.methods[index]? = some v.method
  entry : r.methods[index]? = some v.entry
  record : Image.IsMethod t.layout v.entry v.method.toMethodRecord
  installed : Registry.Installed c r t v.entry v.definition v.body v.lowering v.ops v.value

section
variable {m : Machine} {c : BuildContext} {r : Registry} {t : TypeTables}

theorem RunsBuild.size (h : m.RunsBuild c r t) : m.image.methods.size = r.methods.size := by
  simpa using h.methods.length_eq.symm

theorem RunsBuild.methodAt (h : m.RunsBuild c r t) {index : Nat} (hi : index < r.methods.size) :
    ∃ v, m.MethodAt c r t index v := by
  have hi' : index < m.image.methods.size := by rw [h.size]; exact hi
  obtain ⟨e, d, body, l, ops, value, he, hinstalled⟩ := h.installed index hi
  have hrecord := h.methods.get (i := index) (by simpa using hi) (by simpa using hi')
  refine ⟨⟨m.image.methods[index], e, d, body, l, ops, value⟩, Array.getElem?_eq_getElem hi', he, ?_,
    hinstalled⟩
  obtain ⟨_, rfl⟩ := Array.getElem?_eq_some_iff.1 he
  simpa using hrecord

theorem runsBuild_of_image {start : MethodRef} {index entry : Nat} {linked : Linked} {image : Image}
    (hbuild : c.compileAndLink start {} = .ok (index, linked) r)
    (himage : Image.ofLinked c r linked entry = .ok image)
    (hloaded : m.image = image.loaded) (hbuiltins : m.builtins = c.builtins) :
    ∃ t, linked.layout = t.layout ∧ linked.descriptors = t.descriptors ∧ m.RunsBuild c r t := by
  obtain ⟨r₀, hentry, hlink⟩ := BuildContext.compileAndLink_ok hbuild
  obtain ⟨t, hlayout, hdescriptors, hinstalled⟩ := Registry.installed_of_link hentry hlink
  have hmethods := (Image.readBack_of_link hlink himage).methods
  rw [← hloaded, hlayout] at hmethods
  exact ⟨t, hlayout, hdescriptors, hbuiltins, hmethods, hinstalled⟩

variable {index : Nat} {v : MethodView} (h : m.MethodAt c r t index v)
include h

theorem MethodAt.describes :
    StackProfile.Describes v.body.code v.effect v.entry.profile :=
  StackProfile.describes_of_analyze h.installed.profile

theorem MethodAt.maxStack : v.method.maxStack.toNat = v.entry.profile.maxDepth := by
  rw [h.record.maxStack, word16?_toNat h.installed.maxStack]

theorem MethodAt.operationAt {i : Nat} {instruction : Instruction}
    (hi : v.body.code[i]? = some instruction) : ∃ offset o, v.OperationAt i offset instruction o := by
  obtain ⟨o, offset, ho, hsite, hoffset, hlowers⟩ := h.installed.exists_op hi
  exact ⟨offset, o, hi, ho, hsite, hoffset, hlowers⟩

section
variable {i n offset : Nat} {instruction : Instruction} {o : LoweredOp}
  (hat : v.InstructionAt i n offset instruction o)
include hat

theorem MethodAt.fits :
    StackProfile.Fits v.body.code v.effect v.entry.profile.maxDepth i n instruction := by
  obtain ⟨instruction', hfits, -⟩ := h.describes.fits i n hat.depth
  have hthere := hat.there
  rw [hfits.there] at hthere
  cases hthere
  exact hfits

theorem MethodAt.successor {j : Nat} (hj : j ∈ instruction.op.successors i v.body.code.size) :
    v.entry.profile.depth? j = some (StackProfile.after v.effect i instruction.op n) := by
  obtain ⟨instruction', hfits, hnext⟩ := h.describes.fits i n hat.depth
  have hthere := hat.there
  rw [hfits.there] at hthere
  cases hthere
  exact hnext j hj

end

variable {i offset : Nat} {instruction : Instruction} {o : LoweredOp}
  (hat : v.OperationAt i offset instruction o)
include hat

theorem MethodAt.offset_of_target {target : Nat} (ht : target ∈ instruction.op.targets) :
    v.entry.offset? target = some (v.branchWord target).toNat :=
  (h.installed.offset?_eq target).trans
    (h.installed.branches o (List.mem_of_getElem? hat.op) target
      (hat.lowers.branch_of_target target ht))

/-- The next instruction starts where this one ends, and the last one ends with the code. -/
theorem MethodAt.next_offset :
    (i + 1 < v.body.code.size →
        v.entry.offset? (i + 1) = some (offset + Piece.totalSize o.pieces)) ∧
      (i + 1 = v.body.code.size → offset + Piece.totalSize o.pieces = v.method.code.size) :=
  h.installed.next_offset h.record.code hat.op hat.offset

/-- **What the machine decodes for an instruction.** -/
theorem MethodAt.decoded :
    MachineOp.Decoded v.lowering v.branchWord (v.value i) v.method.code offset
      (offset + Piece.totalSize o.pieces) instruction.op o.site :=
  h.installed.decoded h.record.code hat.there hat.op hat.offset

theorem MethodAt.callee_lt {k pops : Nat} {storage : Option Storage}
    (hsite : o.site = .call (.user k) pops storage) : k < r.methods.size :=
  (h.installed.callees o (List.mem_of_getElem? hat.op) k (hat.lowers.callee_of_site hsite)).2

end

end Machine

end DeviceCode
