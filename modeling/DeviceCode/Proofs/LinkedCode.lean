import DeviceCode.Proofs.Chunk
import DeviceCode.Proofs.Registry.Completed
import DeviceCode.Proofs.TypeTables

/-!
# The code of a linked build

`Registry.Installed`: what a method holds in a linked build. Its code is that of its pieces, its
branches go to the offsets of instructions, and every operand that waited has its value in the tables
of the link (`Registry.Resolves`). Main statement: `installed_of_link`.
-/

namespace DeviceCode

open Chunk

open Lowering.LoweredBody

open List

variable {α : Type} {t t' s s' : TypeTables} {key what : String} {id w : UInt16} {p : Program}
  {r r' : Registry} {operand : LinkOperand} {index i : Nat} {pieces : List (List Piece)} {f : Fixup}
  {m : CompiledMethod} {fixups : List Fixup} {c : BuildContext}

/-! ## Look-ups in tables that grow -/

namespace LayoutTable

theorem Extends.fieldOffset? {t t' : LayoutTable} (h : Extends t t')
    (hw : t.fieldOffset? key = some w) : t'.fieldOffset? key = some w := by
  unfold LayoutTable.fieldOffset? staticField? at hw ⊢
  rw [h.statics]
  cases hs : t.statics.find? (·.key == key) with
  | some f =>
    simp only [hs] at hw ⊢
    exact hw
  | none =>
    simp only [hs] at hw ⊢
    obtain ⟨slot, hslot, rfl⟩ := Option.map_eq_some_iff.1 hw
    obtain ⟨more, hmore⟩ := h.classes
    rw [← Array.findSome?_toList] at hslot ⊢
    rw [← hmore, findSome?_append, hslot]
    rfl

end LayoutTable

/-- Where the code of the instruction at an index starts. -/
def CompiledMethod.offset? (m : CompiledMethod) (index : Nat) : Option Nat :=
  m.chunks[index]?.map (·.offset)

namespace Registry

/-! ## Operands -/

/-- The value of an operand in the tables of a link. -/
def Resolves (p : Program) (r : Registry) (t : TypeTables) : LinkOperand → UInt16 → Prop
  | .classId key, w => t.layout.classId? key = some w.toNat
  | .descriptorId type, w =>
    ∃ key, DescriptorKey.ofType p type = .ok key ∧ t.descriptors.idOf? key = some w
  | .fieldOffset key, w => t.layout.fieldOffset? key = some w
  | .dispatchIndex key, w => r.slotIndex? key = some w.toNat

theorem Resolves.mono (h : Resolves p r t operand w) (ht : TypeTables.Completes t t') :
    Resolves p r t' operand w := by
  cases operand with
  | classId key => exact LayoutTable.classId?_mono ht.layout.classes h
  | descriptorId type =>
    obtain ⟨key, hkey, hid⟩ := h
    exact ⟨key, hkey, DescriptorTable.idOf?_mono ht.keys hid⟩
  | fieldOffset key => exact ht.layout.fieldOffset? h
  | dispatchIndex key => exact h

theorem Resolves.of_slots (h : Resolves p r t operand w) (hslots : r'.slots = r.slots) :
    Resolves p r' t operand w := by
  cases operand with
  | dispatchIndex key =>
    rw [Resolves, slotIndex?, hslots]
    exact h
  | _ => exact h

theorem operandWord_ok (h : operandWord what index = .ok w) : w.toNat = index := by
  unfold operandWord at h
  split at h
  · cases h
    exact toNat_toUInt16 (by omega)
  · cases h

theorem known_ok {name : String} {x : Option α} {a : α} (h : known what name x = .ok a) :
    x = some a := by
  cases x with
  | some b => cases h; rfl
  | none => cases h

theorem operandValue_ok (h : operandValue p r operand t = .ok w t') :
    Resolves p r t' operand w := by
  cases operand with
  | classId key =>
    obtain ⟨id, hid, h⟩ := state_ofExcept_bind_ok.1 h
    obtain ⟨hw, rfl⟩ := state_ofExcept_ok.1 h
    rw [Resolves, known_ok hid, operandWord_ok hw]
  | descriptorId type => exact TypeTables.idOf?_of_ensure h
  | fieldOffset key =>
    obtain ⟨hw, rfl⟩ := state_ofExcept_ok.1 h
    exact known_ok hw
  | dispatchIndex key =>
    obtain ⟨id, hid, h⟩ := state_ofExcept_bind_ok.1 h
    obtain ⟨hw, rfl⟩ := state_ofExcept_ok.1 h
    rw [Resolves, known_ok hid, operandWord_ok hw]

/-! ## Patching -/

/-- The code of a method while operands are written, those of `done` already. -/
structure Patched (p : Program) (r : Registry) (index : Nat) (m : CompiledMethod)
    (pieces : List (List Piece)) (done : List Fixup) (t : TypeTables) (r' : Registry) : Prop where
  slots : r'.slots = r.slots
  entry : ∃ value, r'.methods[index]? =
      some { m with chunks := (Chunk.chunksFor value pieces).toArray } ∧
    ∀ f ∈ done, f.method = index →
      Resolves p r t f.operand (value f.chunk f.position f.operand)

theorem mem_openOperands {start : Nat} :
    f ∈ openOperands index start pieces ↔ f.method = index ∧ start ≤ f.chunk ∧
      ∃ ps, pieces[f.chunk - start]? = some ps ∧ (f.position, f.operand) ∈ Piece.links 0 ps := by
  rw [openOperands, mem_flatMap]
  constructor
  · rintro ⟨⟨ps, chunk⟩, hps, hf⟩
    obtain ⟨⟨position, operand⟩, hlink, rfl⟩ := mem_map.1 hf
    obtain ⟨hle, hget⟩ := mem_zipIdx_iff_le_and_getElem?_sub.1 hps
    exact ⟨rfl, hle, ps, hget, hlink⟩
  · rintro ⟨rfl, hle, ps, hget, hlink⟩
    refine ⟨(ps, f.chunk), mem_zipIdx_iff_le_and_getElem?_sub.2 ⟨hle, hget⟩, ?_⟩
    exact mem_map.2 ⟨(f.position, f.operand), hlink, rfl⟩

theorem Patched.patch {r₁ : Registry} {done : List Fixup} (h : Patched p r index m pieces done t r₁)
    (ht : TypeTables.Completes t t') (hw : Resolves p r t' f.operand w)
    (hf : f.method = index → f ∈ openOperands index 0 pieces) :
    Patched p r index m pieces (done ++ [f]) t' (r₁.patch f w) := by
  obtain ⟨value, hentry, hdone⟩ := h.entry
  refine ⟨h.slots, ?_⟩
  rw [Registry.patch, modifyMethod, Array.getElem?_modify, hentry]
  by_cases hmethod : f.method = index
  · obtain ⟨-, -, ps, hps, hlink⟩ := mem_openOperands.1 (hf hmethod)
    rw [Nat.sub_zero] at hps
    rw [if_pos hmethod]
    refine ⟨fun i => if i = f.chunk then Piece.setWord (value i) f.position f.operand w
      else value i, ?_, fun g hg hgi => ?_⟩
    · rw [← modify_chunksFor w hps hlink]
      simp
    · dsimp only
      by_cases hsame : g.chunk = f.chunk ∧ g.position = f.position ∧ g.operand = f.operand
      · rw [if_pos hsame.1, Piece.setWord, if_pos hsame.2, hsame.2.2]
        exact hw
      · have hold : Resolves p r t' g.operand (value g.chunk g.position g.operand) := by
          rcases mem_append.1 hg with hg | hg
          · exact (hdone g hg hgi).mono ht
          · rw [mem_singleton] at hg
            exact absurd ⟨by rw [hg], by rw [hg], by rw [hg]⟩ hsame
        split
        · rename_i hchunk
          rw [Piece.setWord, if_neg fun hpos => hsame ⟨hchunk, hpos⟩]
          exact hold
        · exact hold
  · rw [if_neg hmethod]
    refine ⟨value, rfl, fun g hg hgi => ?_⟩
    rcases mem_append.1 hg with hg | hg
    · exact (hdone g hg hgi).mono ht
    · rw [mem_singleton] at hg
      exact absurd (hg ▸ hgi) hmethod

/-- **All operands of a method are written**, each with its value in the tables that the link ends
with. -/
theorem patched_of_fold (hm : r.methods[index]? = some m)
    (hchunks : m.chunks.toList = Chunk.chunksFor (fun _ _ _ => Opcode.placeholder) pieces)
    (hopen : ∀ f ∈ fixups, f.method = index → f ∈ openOperands index 0 pieces)
    (h : fixups.foldlM (applyFixup p) t r = .ok t' r') :
    Patched p r index m pieces fixups t' r' := by
  have start : Patched p r index m pieces [] t r := by
    refine ⟨rfl, fun _ _ _ => Opcode.placeholder, ?_, fun f hf => by simp at hf⟩
    rw [hm, ← hchunks]
  refine state_foldlM_ok (fun done t r' =>
    (∀ f ∈ done, f.method = index → f ∈ openOperands index 0 pieces) →
      Patched p r index m pieces done t r') ?_ (fun _ => start) h hopen
  intro done t₁ f r₁ t₂ r₂ ih hstep hdone
  have hbefore := ih fun g hg => hdone g (by simp [hg])
  obtain ⟨w, hvalue, -, rfl⟩ := applyFixup_ok hstep
  have hw := (operandValue_ok hvalue).of_slots hbefore.slots.symm
  exact hbefore.patch (leads_operandValue _ _ _ _ _ _ hvalue) hw (hdone f (by simp))

theorem size_of_fold (h : fixups.foldlM (applyFixup p) t r = .ok t' r') :
    r'.methods.size = r.methods.size := by
  refine state_foldlM_ok (fun _ _ r' => r'.methods.size = r.methods.size) ?_ rfl h
  intro done t₁ f r₁ t₂ r₂ hsize hstep
  obtain ⟨w, -, -, rfl⟩ := applyFixup_ok hstep
  rw [← hsize]
  simp [Registry.patch, modifyMethod]

theorem fixups_of_fold (h : fixups.foldlM (applyFixup p) t r = .ok t' r') :
    r'.fixups = r.fixups := by
  refine state_foldlM_ok (fun _ _ r' => r'.fixups = r.fixups) ?_ rfl h
  intro done t₁ f r₁ t₂ r₂ hfixups hstep
  obtain ⟨w, -, -, rfl⟩ := applyFixup_ok hstep
  exact hfixups

/-! ## The link -/

/-- Methods may have become blocked, and nothing else has changed. -/
structure Blocks (r r' : Registry) : Prop where
  rest : ∃ methods, r' = { r with methods }
  size : r'.methods.size = r.methods.size
  entry : ∀ (i : Nat) m, r.methods[i]? = some m → ∃ status,
    r'.methods[i]? = some { m with cStatus := status } ∧
      (status = m.cStatus ∨ status.isBlocked = true)

theorem growth_blocks : Growth Blocks where
  refl r := ⟨⟨r.methods, rfl⟩, rfl, fun i m hm => ⟨m.cStatus, hm, .inl rfl⟩⟩
  trans {r s t} h₁ h₂ := by
    obtain ⟨methods, rfl⟩ := h₁.rest
    obtain ⟨methods', rfl⟩ := h₂.rest
    refine ⟨⟨methods', rfl⟩, h₂.size.trans h₁.size, fun i m hm => ?_⟩
    obtain ⟨status, hs, hold⟩ := h₁.entry i m hm
    obtain ⟨status', ht, rfl | hblocked⟩ := h₂.entry i _ hs
    · exact ⟨_, ht, hold⟩
    · exact ⟨status', ht, .inr hblocked⟩

theorem blocks_block (index : Nat) (reason : CObstacle) (r : Registry) :
    Blocks r (r.block index reason) := by
  refine ⟨⟨_, rfl⟩, by simp [block, modifyMethod], fun i m hm => ?_⟩
  rw [block, modifyMethod, Array.getElem?_modify, hm]
  split
  · by_cases hb : m.cStatus.isBlocked
    · exact ⟨m.cStatus, by simp [hb], .inl rfl⟩
    · exact ⟨.blocked reason, by simp [hb], .inr rfl⟩
  · exact ⟨m.cStatus, rfl, .inl rfl⟩

theorem blocks_blockCallers (r : Registry) : Blocks r r.blockCallers :=
  growth_blockCallersWithin growth_blocks blocks_block _ r

/-- What a method holds in a linked build. -/
structure Installed (c : BuildContext) (r : Registry) (t : TypeTables) (m : CompiledMethod)
    (d : MethodDef) (body : Body) (l : Lowering) (ops : List LoweredOp)
    (value : Nat → Nat → LinkOperand → UInt16) : Prop
    extends Lowered c r.methods.size m d body l ops where
  chunks : m.chunks.toList = Chunk.chunksFor value (ops.map (·.pieces))
  branches : ∀ o ∈ ops, ∀ target, .branch target ∈ o.pieces →
    (Chunk.offsets (ops.map (·.pieces)))[target]? =
      some (Chunk.branchWord (ops.map (·.pieces)) target).toNat
  links : ∀ (i : Nat) o, ops[i]? = some o → ∀ e ∈ Piece.links 0 o.pieces,
    Resolves c.program r t e.2 (value i e.1 e.2)
  planned : ∀ plan, m.cStatus = .planned plan → ∃ chunks methods, Framed methods r.methods ∧
    CPlan.ofMethod methods c.builtins { m with chunks, cStatus := .undecided } body.code = .ok plan
  decided : m.cStatus ≠ .undecided

/-- What is completed in `r` has all its open operands written in `r'`, with their values in the tables;
some methods may have become blocked. -/
def Links (c : BuildContext) (t : TypeTables) (r r' : Registry) : Prop :=
  ∀ k m d body l ops, r.methods[k]? = some m → Completed c r k m d body l ops →
    ∃ status value, (status = m.cStatus ∨ status.isBlocked = true) ∧
      r'.methods[k]? = some { m with
        cStatus := status
        chunks := (Chunk.chunksFor value (ops.map (·.pieces))).toArray } ∧
      ∀ f ∈ r.fixups, f.method = k →
        Resolves c.program r' t f.operand (value f.chunk f.position f.operand)

section
variable {d : MethodDef} {body : Body} {l : Lowering} {ops : List LoweredOp}
  (h : Completed c r index m d body l ops)
include h

theorem Completed.mem_openOperands (hf : f ∈ r.fixups) (hmethod : f.method = index) :
    f ∈ openOperands index 0 (ops.map (·.pieces)) := by
  rw [← h.fixups, openIn, mem_filter]
  exact ⟨Array.mem_toList_iff.2 hf, by simpa using hmethod⟩

theorem Completed.chunks_eq :
    m.chunks.toList = Chunk.chunksFor (fun _ _ _ => Opcode.placeholder) (ops.map (·.pieces)) :=
  (Lowering.assemble_ok h.chunks).1.trans (by simp [ofOps])

theorem Completed.size_chunks : m.chunks.size = body.code.size := by
  have hlength := h.lowers.length_eq
  rw [length_zipIdx, Array.length_toList] at hlength
  rw [← Array.length_toList, h.chunks_eq, length_chunksFor, length_map, hlength]

end

variable {linked : Linked} {start : MethodRef}

theorem links_of_link (hlink : link c r = .ok linked r') :
    ∃ r₁, bindSlots c r = .ok linked.iterations r₁ ∧ r'.methods.size = r₁.methods.size ∧
      Links c ⟨linked.layout, linked.descriptors⟩ r₁ r' ∧ r'.fixups = #[] ∧
      linked.fixupsApplied = r₁.fixups.size := by
  obtain ⟨r₁, s, t, hbind, -, -, hfold, hlayout, hdescriptors, happlied⟩ := link_ok hlink
  have hblocks := blocks_blockCallers r₁
  obtain ⟨methods, hmethods⟩ := hblocks.rest
  refine ⟨r₁, hbind, (size_of_fold hfold).trans hblocks.size, ?_, fixups_of_fold hfold,
    by rw [happlied, hmethods]⟩
  rw [hlayout, hdescriptors]
  intro k m d body l ops hm hc
  obtain ⟨status, hstatus, hplan⟩ := hblocks.entry k m hm
  have hpatched : Patched c.program { r₁.blockCallers with fixups := #[] } k { m with cStatus := status }
      (ops.map (·.pieces)) r₁.blockCallers.fixups.toList t r' := by
    refine patched_of_fold hstatus hc.chunks_eq (fun f hf hk => ?_) hfold
    rw [hmethods, Array.mem_toList_iff] at hf
    exact hc.mem_openOperands hf hk
  obtain ⟨value, hvalue, hdone⟩ := hpatched.entry
  refine ⟨status, value, hplan, hvalue, fun f hf hk => (hdone f ?_ hk).of_slots hpatched.slots⟩
  rw [hmethods]
  exact Array.mem_toList_iff.2 hf

theorem Links.installed (h : Links c t r r') (hsize : r'.methods.size = r.methods.size)
    (hcompleted : ∀ k < r.methods.size, CompletedAt c r k) {d : MethodDef} {body : Body}
    {l : Lowering} {ops : List LoweredOp} (hm : r.methods[i]? = some m)
    (hc : Completed c r i m d body l ops) :
    ∃ chunks status value, r'.methods[i]? = some { m with chunks, cStatus := status } ∧
      Installed c r' t { m with chunks, cStatus := status } d body l ops value := by
  have hframed : Framed r.methods r'.methods := by
    intro k e he
    obtain ⟨m, d, body, l, ops, hm, hc⟩ := hcompleted k (Array.getElem?_eq_some_iff.1 he).1
    rw [he] at hm
    cases hm
    obtain ⟨status, value, -, hvalue, -⟩ := h k e d body l ops he hc
    exact ⟨_, hvalue, rfl⟩
  obtain ⟨status, value, hstatus, hvalue, hdone⟩ := h i m d body l ops hm hc
  refine ⟨_, status, value, hvalue, {
    hc with
    callees := fun o ho k hk => ?_
    chunks := rfl
    branches := fun o ho target htarget => ?_
    links := fun k o ho e he => ?_
    planned := fun plan hp => ?_
    decided := ?_ }⟩
  · rw [hsize]
    exact hc.callees o ho k hk
  · have hbranches := (Lowering.assemble_ok hc.chunks).2 o.pieces
      (by simpa [ofOps] using ⟨o, ho, rfl⟩) target htarget
    simpa [ofOps] using hbranches
  · have hopen : (⟨i, k, e.1, e.2⟩ : Fixup) ∈ r.openIn i := by
      rw [hc.fixups, mem_openOperands]
      exact ⟨rfl, Nat.zero_le _, o.pieces, by rw [Nat.sub_zero, getElem?_map, ho]; rfl, he⟩
    exact hdone _ (Array.mem_toList_iff.1 (mem_filter.1 hopen).1) rfl
  · obtain ⟨methods', hm', hok⟩ := hc.planned plan (hstatus.elim (fun h => h ▸ hp) fun h => by
      rw [show status = .planned plan from hp] at h
      cases h)
    exact ⟨m.chunks, methods', hm'.trans hframed, hok⟩
  · rcases hstatus with rfl | hblocked
    · exact hc.decided
    · intro h
      rw [show status = .undecided from h] at hblocked
      cases hblocked

/-- The methods of a linked build are those that were compiled; the link changes their code and their
status only. -/
theorem methods_of_link
    (hentry : compileEntry c start {} = .ok index r) (hlink : link c r = .ok linked r') :
    ∃ r₁, bindSlots c r = .ok linked.iterations r₁ ∧ r'.methods.size = r₁.methods.size ∧
      ∀ i < r'.methods.size, ∃ m d body l ops chunks status value, r₁.methods[i]? = some m ∧
        Completed c r₁ i m d body l ops ∧
        r'.methods[i]? = some { m with chunks, cStatus := status } ∧
        Installed c r' ⟨linked.layout, linked.descriptors⟩ { m with chunks, cStatus := status } d body
          l ops value := by
  obtain ⟨r₁, hbind, hsize, hlinks, -⟩ := links_of_link hlink
  obtain ⟨hcompleted, -⟩ := completed_of_bound hentry hbind
  refine ⟨r₁, hbind, hsize, fun i hi => ?_⟩
  obtain ⟨m, d, body, l, ops, hm, hc⟩ := hcompleted i (hsize ▸ hi)
  obtain ⟨chunks, status, value, hm', h⟩ := hlinks.installed hsize hcompleted hm hc
  exact ⟨m, d, body, l, ops, chunks, status, value, hm, hc, hm', h⟩

/-- **Every method of a linked build is installed.** -/
theorem installed_of_link
    (hentry : compileEntry c start {} = .ok index r) (hlink : link c r = .ok linked r') :
    ∃ t, linked.layout = t.layout ∧ linked.descriptors = t.descriptors ∧
      ∀ i < r'.methods.size, ∃ m d body l ops value,
        r'.methods[i]? = some m ∧ Installed c r' t m d body l ops value := by
  obtain ⟨r₁, -, -, hmethods⟩ := methods_of_link hentry hlink
  refine ⟨⟨linked.layout, linked.descriptors⟩, rfl, rfl, fun i hi => ?_⟩
  obtain ⟨m, d, body, l, ops, chunks, status, value, -, -, hm, h⟩ := hmethods i hi
  exact ⟨_, d, body, l, ops, value, hm, h⟩

namespace Installed

variable {d : MethodDef} {body : Body} {l : Lowering} {ops : List LoweredOp}
  {value : Nat → Nat → LinkOperand → UInt16} (h : Installed c r t m d body l ops value)
include h

theorem length_ops : ops.length = body.code.size := by
  have hlength := h.lowers.length_eq
  rw [length_zipIdx] at hlength
  exact hlength.symm

theorem offset?_eq (i : Nat) : m.offset? i = (Chunk.offsets (ops.map (·.pieces)))[i]? := by
  rw [CompiledMethod.offset?, ← Array.getElem?_toList, h.chunks, ← List.getElem?_map,
    map_offset_chunksFor]

theorem exists_op {instruction : Instruction} (hi : body.code[i]? = some instruction) :
    ∃ o offset, ops[i]? = some o ∧ m.sites[i]? = some o.site ∧ m.offset? i = some offset ∧
      l.Lowers i instruction.op o := by
  have hlt : i < body.code.size := (Array.getElem?_eq_some_iff.1 hi).1
  have hlt' : i < ops.length := by rw [h.length_ops]; exact hlt
  have hpiece : i < (offsets (ops.map (·.pieces))).length := by
    rw [length_offsets, List.length_map]
    exact hlt'
  refine ⟨ops[i], _, List.getElem?_eq_getElem hlt', ?_, (h.offset?_eq i).trans
    (List.getElem?_eq_getElem hpiece), ?_⟩
  · rw [← Array.getElem?_toList, h.sites, List.getElem?_map, List.getElem?_eq_getElem hlt']
    rfl
  · have hlowers := h.lowers.get (i := i) (by simpa using hlt) hlt'
    rw [← Array.getElem?_toList] at hi
    obtain ⟨_, rfl⟩ := List.getElem?_eq_some_iff.1 hi
    simpa using hlowers

theorem exists_op_of_site {site : Site} (hsite : m.sites[i]? = some site) :
    ∃ o op, ops[i]? = some o ∧ o.site = site ∧ l.Lowers i op o := by
  rw [← Array.getElem?_toList, h.sites, List.getElem?_map] at hsite
  obtain ⟨o, ho, hsite⟩ := Option.map_eq_some_iff.1 hsite
  have hlt : i < body.code.size := by
    rw [← h.length_ops]
    exact (List.getElem?_eq_some_iff.1 ho).1
  obtain ⟨o', -, ho', -, -, hlowers⟩ := h.exists_op (Array.getElem?_eq_getElem hlt)
  obtain rfl := Option.some.inj (ho.symm.trans ho')
  exact ⟨o, _, ho, hsite, hlowers⟩

theorem first_offset (hpos : 0 < body.code.size) : m.offset? 0 = some 0 := by
  rw [h.offset?_eq, offsets, getElem?_placements]
  · rfl
  · rw [length_map, length_map, h.length_ops]
    exact hpos

end Installed

end Registry

end DeviceCode
