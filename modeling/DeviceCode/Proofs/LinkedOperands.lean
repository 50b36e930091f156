import DeviceCode.Proofs.LinkedCode

/-!
# The operands of linked code

What the link does to the bytes of a build. The operands that wait for it lie in chunks of their
methods and do not overlap; each gets its value in the tables that the link ends with, also if these
grew behind it; all other bytes stay what lowering made of them. Main statement: `operands_linked`.
-/

namespace DeviceCode

open Piece

open Chunk

open List

/-! ## Sites -/

namespace Fixup

/-- The two operands share no byte. -/
def Apart (f g : Fixup) : Prop :=
  f.method = g.method → f.chunk = g.chunk → f.position + 2 ≤ g.position ∨ g.position + 2 ≤ f.position

/-- The byte at a position of a chunk is one of the operand's. -/
def Holds (f : Fixup) (method chunk position : Nat) : Prop :=
  f.method = method ∧ f.chunk = chunk ∧ (position = f.position ∨ position = f.position + 1)

theorem pairwise_apart : ∀ {fixups : List Fixup},
    (∀ i, (fixups.filter (·.method == i)).Pairwise Apart) → fixups.Pairwise Apart
  | [], _ => .nil
  | f :: fixups, h => by
    refine .cons (fun g hg hmethod => ?_) (pairwise_apart fun i => ?_)
    · have hfirst := h f.method
      rw [filter_cons, if_pos (by simp)] at hfirst
      exact (pairwise_cons.1 hfirst).1 g (by simp [hg, hmethod]) hmethod
    · have hi := h i
      rw [filter_cons] at hi
      split at hi
      · exact (pairwise_cons.1 hi).2
      · exact hi

end Fixup

namespace Registry

theorem pairwise_openOperands (index start : Nat) (pieces : List (List Piece)) :
    (openOperands index start pieces).Pairwise Fixup.Apart := by
  refine pairwise_flatMap.2 ⟨fun e _ => ?_, ?_⟩
  · rw [pairwise_map]
    exact (pairwise_links 0 e.1).imp fun h _ _ => .inl h
  · -- operands of different instructions lie in different chunks
    have hchunks : (pieces.zipIdx start).Pairwise fun a b => a.2 ≠ b.2 := by
      rw [← pairwise_map (f := Prod.snd), zipIdx_map_snd]
      exact nodup_range' 1
    refine hchunks.imp fun {a b} hne f hf g hg hmethod hchunk => ?_
    obtain ⟨e, -, rfl⟩ := mem_map.1 hf
    obtain ⟨e', -, rfl⟩ := mem_map.1 hg
    exact absurd hchunk hne

/-! ## What stands in the chunks -/

section
variable {value value' : Nat → Nat → LinkOperand → UInt16} {pieces : List (List Piece)} {j : Nat}

theorem offset_chunk {chunk : Chunk} (h : (Chunk.chunksFor value pieces)[j]? = some chunk) :
    chunk.offset = (((Chunk.chunksFor value pieces).take j).flatMap (·.bytes)).length := by
  rw [getElem?_chunksFor, Option.map_eq_some_iff] at h
  obtain ⟨⟨ps, offset⟩, hzip, rfl⟩ := h
  obtain ⟨hps, hoffset⟩ := getElem?_zip_eq_some.1 hzip
  rw [offsets, getElem?_placements (by simpa using (List.getElem?_eq_some_iff.1 hps).1),
    Option.some.injEq, Nat.zero_add] at hoffset
  rw [length_flatMap_total, map_take, length_bytes_chunksFor]
  exact hoffset.symm

end

/-- What the link makes of the operands that wait in `r`: each is written, and nothing else is. -/
structure OperandsLinked (p : Program) (t : TypeTables) (r r' : Registry) : Prop where
  apart : r.fixups.toList.Pairwise Fixup.Apart
  written : ∀ f ∈ r.fixups, ∃ m chunk w, r'.methods[f.method]? = some m ∧
    m.chunks[f.chunk]? = some chunk ∧ f.position + 2 ≤ chunk.bytes.length ∧
    (chunk.bytes.drop f.position).take 2 = Word.bytes16 w ∧ Resolves p r' t f.operand w
  frame : ∀ (i : Nat) m, r.methods[i]? = some m → ∃ m', r'.methods[i]? = some m' ∧
    m'.chunks.size = m.chunks.size ∧ ∀ (j : Nat) chunk, m.chunks[j]? = some chunk →
      ∃ chunk', m'.chunks[j]? = some chunk' ∧ chunk'.offset = chunk.offset ∧
        chunk'.bytes.length = chunk.bytes.length ∧ ∀ position : Nat,
          (∀ f ∈ r.fixups, ¬f.Holds i j position) → chunk'.bytes[position]? = chunk.bytes[position]?

section
variable {c : BuildContext} {t : TypeTables} {r r' : Registry}
  (hcompleted : ∀ i < r.methods.size, CompletedAt c r i) (htidy : Tidy r)
include hcompleted htidy

theorem pairwise_fixups : r.fixups.toList.Pairwise Fixup.Apart := by
  refine Fixup.pairwise_apart fun i => ?_
  by_cases hi : i < r.methods.size
  · obtain ⟨m, d, body, l, ops, -, hc⟩ := hcompleted i hi
    show (r.openIn i).Pairwise Fixup.Apart
    rw [hc.fixups]
    exact pairwise_openOperands i 0 _
  · have hnone : r.fixups.toList.filter (·.method == i) = [] := by
      refine filter_eq_nil_iff.2 fun f hf hmethod => ?_
      have hlt := htidy f (Array.mem_toList_iff.1 hf)
      rw [beq_iff_eq] at hmethod
      omega
    rw [hnone]
    exact .nil

theorem Links.operandsLinked (hlinks : Links c t r r') : OperandsLinked c.program t r r' where
  apart := pairwise_fixups hcompleted htidy
  written f hf := by
    obtain ⟨m, d, body, l, ops, hm, hc⟩ := hcompleted f.method (htidy f hf)
    obtain ⟨status, value, -, hvalue, hdone⟩ := hlinks f.method m d body l ops hm hc
    obtain ⟨-, -, ps, hps, hlink⟩ := mem_openOperands.1 (hc.mem_openOperands hf rfl)
    obtain ⟨offset, hchunk⟩ := getElem?_chunk hps
    refine ⟨_, _, value f.chunk f.position f.operand, hvalue,
      (getElem?_toArray ..).trans (hchunk value), ?_, written_at_link _ hlink, hdone f hf rfl⟩
    rw [length_written]
    have hle := add_le_of_mem_links hlink
    omega
  frame i m hm := by
    obtain ⟨m', d, body, l, ops, hm', hc⟩ := hcompleted i (Array.getElem?_eq_some_iff.1 hm).1
    obtain rfl := Option.some.inj (hm.symm.trans hm')
    obtain ⟨status, value, -, hvalue, -⟩ := hlinks i m d body l ops hm hc
    refine ⟨_, hvalue, ?_, fun j chunk hchunk => ?_⟩
    · rw [← Array.length_toList, ← Array.length_toList, hc.chunks_eq, length_chunksFor, length_chunksFor]
    · rw [← Array.getElem?_toList, hc.chunks_eq] at hchunk
      obtain ⟨ps, hps⟩ : ∃ ps, (ops.map (·.pieces))[j]? = some ps := by
        have hj := (List.getElem?_eq_some_iff.1 hchunk).1
        rw [length_chunksFor] at hj
        exact ⟨_, getElem?_eq_getElem hj⟩
      obtain ⟨offset, hall⟩ := getElem?_chunk hps
      obtain rfl := Option.some.inj ((hall _).symm.trans hchunk)
      refine ⟨_, (getElem?_toArray ..).trans (hall value), rfl, by simp, fun position houtside => ?_⟩
      refine getElem?_written_outside _ _ _ fun e he => ?_
      rw [Nat.zero_add]
      -- the operand of such a byte would be one of those that wait
      have hmem : (⟨i, j, e.1, e.2⟩ : Fixup) ∈ r.openIn i := by
        rw [hc.fixups, mem_openOperands]
        exact ⟨rfl, Nat.zero_le _, _, hps, he⟩
      have hno := houtside _ (Array.mem_toList_iff.1 (mem_filter.1 hmem).1)
      exact not_or.1 fun hposition => hno ⟨rfl, rfl, hposition⟩

end

/-- The code of a method ends each instruction with its branches, and these are where the instructions
that they name start. -/
def BranchesTo (m : CompiledMethod) (code : Array Instruction) : Prop :=
  m.chunks.size = code.size ∧
    ∀ (j : Nat) instruction, code[j]? = some instruction → ∃ chunk lead words,
      m.chunks[j]? = some chunk ∧
      chunk.offset = ((m.chunks.toList.take j).flatMap (·.bytes)).length ∧
      chunk.bytes = lead ++ words.flatMap Word.bytes16 ∧
      List.Forall₂ (fun target w => m.offset? target = some (UInt16.toNat w)) instruction.op.targets words

theorem written_branches (branchWord : Nat → UInt16) (value : Nat → LinkOperand → UInt16) :
    ∀ (start : Nat) (targets : List Nat),
      Piece.written branchWord value start (targets.map .branch) =
        (targets.map branchWord).flatMap Word.bytes16
  | _, [] => rfl
  | start, t :: targets => by
    rw [map_cons, written, written_branches]
    rfl

theorem Installed.branchesTo {c : BuildContext} {r : Registry} {t : TypeTables}
    {d : MethodDef} {body : Body} {l : Lowering} {ops : List LoweredOp}
    {value : Nat → Nat → LinkOperand → UInt16} (h : Installed c r t m d body l ops value) :
    BranchesTo m body.code := by
  have hsize : m.chunks.size = body.code.size := by
    rw [← Array.length_toList, h.chunks, ← h.length_ops, length_chunksFor, length_map]
  refine ⟨hsize, fun j instruction hj => ?_⟩
  obtain ⟨o, -, ho, -, -, hlowers⟩ := h.exists_op hj
  obtain ⟨lead, hlead⟩ := hlowers.branches_last
  have hps : (ops.map (·.pieces))[j]? = some o.pieces := by rw [getElem?_map, ho]; rfl
  obtain ⟨offset, hall⟩ := getElem?_chunk hps
  have hchunk := hall value
  rw [hlead, written_append, written_branches] at hchunk
  refine ⟨_, _, instruction.op.targets.map (branchWord (ops.map (·.pieces))),
    by rw [← Array.getElem?_toList, h.chunks]; exact hchunk, by rw [h.chunks]; exact offset_chunk hchunk,
    rfl, ?_⟩
  rw [forall₂_map_right_iff, forall₂_same]
  intro target htarget
  rw [h.offset?_eq]
  exact h.branches o (mem_of_getElem? ho) target (hlowers.branch_of_target target htarget)

/-- **Linked operands.** All operands that wait for the link, those of methods that the link compiled
among them, lie in chunks of their methods and share no byte; the link takes them all, and in the end
each has its value in the tables of the build. No other byte is changed, and every branch is the offset of
its target. -/
theorem operands_linked {c : BuildContext} {start : MethodRef} {index : Nat} {r r' : Registry}
    {linked : Linked} (hentry : compileEntry c start {} = .ok index r)
    (hlink : link c r = .ok linked r') :
    ∃ r₁, bindSlots c r = .ok linked.iterations r₁ ∧
      (∀ i < r₁.methods.size, CompletedAt c r₁ i) ∧ r'.fixups = #[] ∧
      linked.fixupsApplied = r₁.fixups.size ∧
      OperandsLinked c.program ⟨linked.layout, linked.descriptors⟩ r₁ r' ∧
      ∀ (i : Nat) m, r'.methods[i]? = some m → ∃ d body, c.program.methodDef? m.method = some d ∧
        d.body = some body ∧ BranchesTo m body.code := by
  obtain ⟨r₁, hbind, -, hlinks, htaken, happlied⟩ := links_of_link hlink
  obtain ⟨hcompleted, htidy⟩ := completed_of_bound hentry hbind
  refine ⟨r₁, hbind, hcompleted, htaken, happlied, hlinks.operandsLinked hcompleted htidy, ?_⟩
  intro i m hm
  obtain ⟨t', -, -, installed⟩ := installed_of_link hentry hlink
  obtain ⟨m', d, body, l, ops, value, hm', h⟩ := installed i (Array.getElem?_eq_some_iff.1 hm).1
  rw [hm] at hm'
  cases hm'
  exact ⟨d, body, h.method, h.source, h.branchesTo⟩

/-- A loop over an object, an array, a field and a call through dispatch; only the link comes to the
method that is called. -/
def tally : BuildContext where
  program := {
    types := #[
      { name := "Counter", isAbstract := true, methods := [⟨0⟩] },
      { name := "Clock", base := some (.named ⟨0⟩ []), methods := [⟨1⟩, ⟨2⟩]
        fields := [{ name := "ticks", type := .primitive .i32 }] },
      { name := "P", methods := [⟨3⟩]
        fields := [{ name := "log", type := .array (.primitive .i32), isStatic := true }] }]
    methods := #[
      { name := "Next", declaring := ⟨0⟩, ret := .primitive .i32, isAbstract := true
        isVirtual := true },
      { name := "Next", declaring := ⟨1⟩, ret := .primitive .i32, isVirtual := true
        body := some { code := #[{ op := .slot .arguments .load 0 },
          { op := .field false .load ⟨.named ⟨1⟩ [], "ticks"⟩ }, { op := .jumpIf false 5 },
          { op := .const (.i4 1) }, { op := .ret }, { op := .const (.i4 0) }, { op := .ret }] } },
      { name := ".ctor", declaring := ⟨1⟩, body := some { code := #[{ op := .ret }] } },
      { name := "Main", declaring := ⟨2⟩, isStatic := true
        body := some { code := #[{ op := .const (.i4 4) }, { op := .newArray (.primitive .i32) },
          { op := .field true .store ⟨.named ⟨2⟩ [], "log"⟩ },
          { op := .newObject ⟨.named ⟨1⟩ [], ".ctor", [], .void, true⟩ },
          { op := .call true ⟨.named ⟨0⟩ [], "Next", [], .primitive .i32, true⟩ },
          { op := .switch [0, 6] }, { op := .ret }] } }] }

def tallyEntry : MethodRef := ⟨.named ⟨2⟩ [], "Main", [], .void, false⟩

/-- The registry before and after the link. -/
def tallyCompiled : Registry := stateAfter (compileEntry tally tallyEntry) {}

def tallyLinked : Registry := stateAfter (link tally) tallyCompiled

theorem tally_operands_linked :
    ∃ index linked, compileEntry tally tallyEntry {} = .ok index tallyCompiled ∧
      link tally tallyCompiled = .ok linked tallyLinked ∧ tallyCompiled.fixups.size = 4 ∧
      linked.fixupsApplied = 6 ∧
      ∃ r₁, bindSlots tally tallyCompiled = .ok linked.iterations r₁ ∧
        (∀ i < r₁.methods.size, CompletedAt tally r₁ i) ∧ tallyLinked.fixups = #[] ∧
        linked.fixupsApplied = r₁.fixups.size ∧
        OperandsLinked tally.program ⟨linked.layout, linked.descriptors⟩ r₁ tallyLinked ∧
        ∀ (i : Nat) m, tallyLinked.methods[i]? = some m → ∃ d body,
          tally.program.methodDef? m.method = some d ∧ d.body = some body ∧
          BranchesTo m body.code := by
  have hentry : ((compileEntry tally tallyEntry).run' {}).any (fun _ => true) = true := by decide +kernel
  have hlink : (((link tally).run' tallyCompiled).any (·.fixupsApplied == 6)) = true := by
    decide +kernel
  obtain ⟨index, hindex, -⟩ := ok_of_any hentry
  obtain ⟨linked, hlinked, happlied⟩ := ok_of_any hlink
  exact ⟨index, linked, hindex, hlinked, by decide +kernel, eq_of_beq happlied,
    operands_linked hindex hlinked⟩

end Registry

end DeviceCode
