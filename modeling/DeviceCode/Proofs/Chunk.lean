import DeviceCode.Proofs.Bytes
import DeviceCode.Proofs.Outcome
import DeviceCode.Registry.Lowering

/-!
# The bytes of chunks

`Piece.written branch value start pieces`: the bytes of pieces, once it is known which words the
branches and the open operands come to. `Chunk.chunksFor` are the chunks of a whole body. Main
statements: `assemble_ok`, a body is assembled into such chunks, with a placeholder for every open
operand; `modify_chunksFor`, patching an open operand changes that operand and nothing else.
-/

namespace DeviceCode

open Chunk

open List

variable {position : Nat} {operand : LinkOperand} {pieces : List (List Piece)} {ps : List Piece}

namespace Piece

/-- The bytes of a piece, for the words that branches and open operands come to. -/
def bytesFor (branchWord : Nat → UInt16) (value : LinkOperand → UInt16) : Piece → List UInt8
  | byte v => [v]
  | word w => Word.bytes16 w
  | bytes values => values
  | branch target => Word.bytes16 (branchWord target)
  | link operand => Word.bytes16 (value operand)

/-- The bytes of pieces from the position `start` on. The word of an open operand may depend on its
position. -/
def written (branchWord : Nat → UInt16) (value : Nat → LinkOperand → UInt16) :
    (start : Nat) → List Piece → List UInt8
  | _, [] => []
  | start, p :: rest =>
    p.bytesFor branchWord (value start) ++ written branchWord value (start + p.size) rest

section
variable (branchWord : Nat → UInt16) {value : Nat → LinkOperand → UInt16}

@[simp] theorem length_bytesFor (value : LinkOperand → UInt16) (p : Piece) :
    (p.bytesFor branchWord value).length = p.size := by
  cases p <;> rfl

@[simp] theorem length_written (value : Nat → LinkOperand → UInt16) :
    ∀ (start : Nat) (pieces : List Piece),
      (written branchWord value start pieces).length = totalSize pieces
  | _, [] => rfl
  | start, p :: rest => by
    rw [written, length_append, length_bytesFor, length_written value _ rest, totalSize]

theorem written_const (value : LinkOperand → UInt16) : ∀ (start : Nat) (pieces : List Piece),
    written branchWord (fun _ => value) start pieces =
      pieces.flatMap (bytesFor branchWord value)
  | _, [] => rfl
  | start, p :: rest => by
    rw [written, written_const value _ rest, flatMap_cons]

theorem links_cons {p : Piece} (hp : ∀ o, p ≠ link o) (start : Nat) (rest : List Piece) :
    links start (p :: rest) = links (start + p.size) rest := by
  cases p with
  | link o => exact absurd rfl (hp o)
  | _ => rfl

theorem le_of_mem_links :
    ∀ {start : Nat} {pieces : List Piece}, (position, operand) ∈ links start pieces →
      start ≤ position
  | _, [], h => by simp [links] at h
  | start, p :: rest, h => by
    by_cases hp : ∃ o, p = link o
    · obtain ⟨o, rfl⟩ := hp
      rcases mem_cons.1 h with heq | h
      · cases heq
        exact Nat.le_refl _
      · have := le_of_mem_links h
        omega
    · rw [links_cons fun o ho => hp ⟨o, ho⟩] at h
      have := le_of_mem_links h
      omega

theorem written_congr {value' : Nat → LinkOperand → UInt16} :
    ∀ {start : Nat} {pieces : List Piece},
      (∀ e ∈ links start pieces, value e.1 e.2 = value' e.1 e.2) →
      written branchWord value start pieces = written branchWord value' start pieces
  | _, [], _ => rfl
  | start, p :: rest, h => by
    by_cases hp : ∃ o, p = link o
    · obtain ⟨o, rfl⟩ := hp
      have hfirst : value start o = value' start o := h (start, o) mem_cons_self
      have hrest : ∀ e ∈ links (start + size (link o)) rest, value e.1 e.2 = value' e.1 e.2 :=
        fun e he => h e (mem_cons_of_mem _ he)
      rw [written, written, bytesFor, bytesFor, hfirst, written_congr hrest]
    · have hne : ∀ o, p ≠ link o := fun o ho => hp ⟨o, ho⟩
      rw [links_cons hne] at h
      rw [written, written_congr h]
      cases p with
      | link o => exact absurd rfl (hne o)
      | _ => rfl

/-- The words with the one at a position changed. -/
def setWord (value : Nat → LinkOperand → UInt16) (position : Nat) (operand : LinkOperand)
    (w : UInt16) : Nat → LinkOperand → UInt16 :=
  fun position' operand' =>
    if position' = position ∧ operand' = operand then w else value position' operand'

/-- **Writing over an open operand** changes that operand and nothing else. -/
theorem written_set (w : UInt16) :
    ∀ {start : Nat} {pieces : List Piece}, (position, operand) ∈ links start pieces →
      ((written branchWord value start pieces).set (position - start) w.toUInt8).set
        (position - start + 1) (w >>> 8).toUInt8 =
      written branchWord (setWord value position operand w) start pieces
  | _, [], h => by simp [links] at h
  | start, p :: rest, h => by
    -- the operand lies behind the first piece, unless it is that piece
    have behind : (position, operand) ∈ links (start + p.size) rest →
        p.bytesFor branchWord (setWord value position operand w start) =
          p.bytesFor branchWord (value start) →
        ((written branchWord value start (p :: rest)).set (position - start) w.toUInt8).set
            (position - start + 1) (w >>> 8).toUInt8 =
          written branchWord (setWord value position operand w) start (p :: rest) := by
      intro hrest hfirst
      have hle := le_of_mem_links hrest
      rw [written, written, hfirst, ← written_set w hrest,
        set_append_right _ _ (by rw [length_bytesFor]; omega),
        set_append_right _ _ (by rw [length_bytesFor]; omega), length_bytesFor]
      congr 2
      · congr 1
        omega
      · omega
    by_cases hp : ∃ o, p = link o
    · obtain ⟨o, rfl⟩ := hp
      rcases mem_cons.1 h with heq | hrest
      · cases heq
        rw [written, written, Nat.sub_self]
        have hword : setWord value position operand w position operand = w := by simp [setWord]
        have hothers : ∀ e ∈ links (position + size (link operand)) rest,
            setWord value position operand w e.1 e.2 = value e.1 e.2 := by
          intro e he
          have hle := le_of_mem_links he
          rw [setWord, if_neg]
          rw [size] at hle
          omega
        rw [written_congr branchWord hothers, bytesFor, bytesFor, hword]
        rfl
      · refine behind hrest ?_
        have hle := le_of_mem_links hrest
        rw [bytesFor, bytesFor, setWord, if_neg]
        omega
    · have hne : ∀ o, p ≠ link o := fun o ho => hp ⟨o, ho⟩
      rw [links_cons hne] at h
      refine behind h ?_
      cases p with
      | link o => exact absurd rfl (hne o)
      | _ => rfl

theorem written_append (value : Nat → LinkOperand → UInt16) : ∀ (start : Nat) (ps qs : List Piece),
    written branchWord value start (ps ++ qs) =
      written branchWord value start ps ++ written branchWord value (start + totalSize ps) qs
  | _, [], _ => rfl
  | start, p :: ps, qs => by
    rw [cons_append, written, written, written_append, append_assoc, totalSize,
      Nat.add_assoc]

theorem written_at_link :
    ∀ {start : Nat} {pieces : List Piece}, (position, operand) ∈ links start pieces →
    ((written branchWord value start pieces).drop (position - start)).take 2 =
      Word.bytes16 (value position operand)
  | _, [], h => by simp [links] at h
  | start, p :: rest, h => by
    have behind : (position, operand) ∈ links (start + p.size) rest →
        ((written branchWord value start (p :: rest)).drop (position - start)).take 2 =
          Word.bytes16 (value position operand) := by
      intro hrest
      have hle := le_of_mem_links hrest
      have hlength : position - start = (p.bytesFor branchWord (value start)).length +
          (position - (start + p.size)) := by
        rw [length_bytesFor]
        omega
      rw [written, hlength, drop_length_add_append]
      exact written_at_link hrest
    by_cases hp : ∃ o, p = link o
    · obtain ⟨o, rfl⟩ := hp
      rcases mem_cons.1 h with heq | hrest
      · cases heq
        rw [Nat.sub_self]
        rfl
      · exact behind hrest
    · rw [links_cons fun o ho => hp ⟨o, ho⟩] at h
      exact behind h

/-- **Bytes outside the open operands** do not depend on their words. -/
theorem getElem?_written_outside (value value' : Nat → LinkOperand → UInt16) :
    ∀ {start : Nat} {pieces : List Piece} {i : Nat},
      (∀ e ∈ links start pieces, start + i ≠ e.1 ∧ start + i ≠ e.1 + 1) →
      (written branchWord value start pieces)[i]? = (written branchWord value' start pieces)[i]?
  | _, [], _, _ => rfl
  | start, p :: rest, i, h => by
    rw [written, written]
    by_cases hi : i < p.size
    · rw [getElem?_append_left (by rwa [length_bytesFor]),
        getElem?_append_left (by rwa [length_bytesFor])]
      cases p with
      | link o =>
        obtain ⟨hfirst, hsecond⟩ := h (start, o) mem_cons_self
        have hi : i < 2 := hi
        omega
      | _ => rfl
    · have hrest : ∀ e ∈ links (start + p.size) rest,
          start + p.size + (i - p.size) ≠ e.1 ∧ start + p.size + (i - p.size) ≠ e.1 + 1 := by
        intro e he
        rw [Nat.add_assoc, Nat.add_sub_cancel' (by omega)]
        refine h e ?_
        cases p with
        | link o => exact mem_cons_of_mem _ he
        | _ => exact he
      rw [getElem?_append_right (by rw [length_bytesFor]; omega),
        getElem?_append_right (by rw [length_bytesFor]; omega), length_bytesFor, length_bytesFor]
      exact getElem?_written_outside value value' hrest

end

theorem add_le_of_mem_links :
    ∀ {start : Nat} {pieces : List Piece}, (position, operand) ∈ links start pieces →
      position + 2 ≤ start + totalSize pieces
  | _, [], h => by simp [links] at h
  | start, p :: rest, h => by
    rw [totalSize]
    by_cases hp : ∃ o, p = link o
    · obtain ⟨o, rfl⟩ := hp
      rcases mem_cons.1 h with heq | h
      · cases heq
        rw [size]
        omega
      · have := add_le_of_mem_links h
        rw [size]
        omega
    · rw [links_cons fun o ho => hp ⟨o, ho⟩] at h
      have := add_le_of_mem_links h
      omega

theorem pairwise_links : ∀ (start : Nat) (pieces : List Piece),
    (links start pieces).Pairwise fun a b => a.1 + 2 ≤ b.1
  | _, [] => List.Pairwise.nil
  | start, p :: rest => by
    by_cases hp : ∃ o, p = link o
    · obtain ⟨o, rfl⟩ := hp
      exact List.Pairwise.cons (fun e he => le_of_mem_links he) (pairwise_links (start + 2) rest)
    · rw [links_cons fun o ho => hp ⟨o, ho⟩]
      exact pairwise_links _ rest

theorem encode_ok {ε : Type} {branchOffset : Nat → Except ε UInt16} {branchWord : Nat → UInt16}
    (hbranch : ∀ t w, branchOffset t = .ok w → branchWord t = w) {p : Piece} {bs : List UInt8}
    (h : p.encode branchOffset = .ok bs) :
    bs = p.bytesFor branchWord fun _ => Opcode.placeholder := by
  cases p with
  | branch target =>
    obtain ⟨w, hw, rfl⟩ := except_map_ok.1 h
    rw [bytesFor, hbranch target w hw]
  | _ =>
    cases h
    rfl

end Piece

namespace Chunk

@[simp] theorem length_offsets (pieces : List (List Piece)) :
    (offsets pieces).length = pieces.length := by
  simp [offsets]

/-- The word of a branch to the instruction at a position. -/
def branchWord (pieces : List (List Piece)) (target : Nat) : UInt16 :=
  ((offsets pieces)[target]?.getD 0).toUInt16

/-- The chunks of a body; the words of open operands are given by chunk and position. -/
def chunksFor (value : Nat → Nat → LinkOperand → UInt16) (pieces : List (List Piece)) : List Chunk :=
  (pieces.zip (offsets pieces)).zipIdx.map fun ((ps, offset), index) =>
    { offset, bytes := Piece.written (branchWord pieces) (value index) 0 ps }

section
variable (value : Nat → Nat → LinkOperand → UInt16) (pieces : List (List Piece))

theorem getElem?_chunksFor (i : Nat) :
    (chunksFor value pieces)[i]? = (pieces.zip (offsets pieces))[i]?.map fun e =>
      { offset := e.2, bytes := Piece.written (branchWord pieces) (value i) 0 e.1 } := by
  rw [chunksFor, getElem?_map, getElem?_zipIdx, Option.map_map, Nat.zero_add]
  rfl

@[simp] theorem length_chunksFor : (chunksFor value pieces).length = pieces.length := by
  simp [chunksFor]

theorem map_offset_chunksFor : (chunksFor value pieces).map (·.offset) = offsets pieces := by
  have hzip : (chunksFor value pieces).map (·.offset) =
      ((pieces.zip (offsets pieces)).zipIdx.map Prod.fst).map Prod.snd := by
    rw [chunksFor, map_map, map_map]
    rfl
  rw [hzip, zipIdx_map_fst, map_snd_zip (by simp)]

theorem length_bytes_chunksFor :
    (chunksFor value pieces).map (fun chunk => chunk.bytes.length) =
      pieces.map Piece.totalSize := by
  have hzip : (chunksFor value pieces).map (fun chunk => chunk.bytes.length) =
      (((pieces.zip (offsets pieces)).zipIdx.map Prod.fst).map Prod.fst).map Piece.totalSize := by
    rw [chunksFor, map_map, map_map, map_map]
    exact map_congr_left fun e _ => by simp
  rw [hzip, zipIdx_map_fst, map_fst_zip (by simp)]

end

theorem getElem?_chunk {i : Nat}
    (hps : pieces[i]? = some ps) : ∃ offset, ∀ value, (chunksFor value pieces)[i]? =
      some ⟨offset, Piece.written (branchWord pieces) (value i) 0 ps⟩ := by
  have hlt : i < (offsets pieces).length := by
    rw [length_offsets]
    exact (List.getElem?_eq_some_iff.1 hps).1
  have hzip : (pieces.zip (offsets pieces))[i]? = some (ps, (offsets pieces)[i]) :=
    getElem?_zip_eq_some.2 ⟨hps, getElem?_eq_getElem hlt⟩
  refine ⟨(offsets pieces)[i], fun value => ?_⟩
  rw [getElem?_chunksFor, hzip]
  rfl

/-- **Patching an open operand** of a body. -/
theorem modify_chunksFor {value : Nat → Nat → LinkOperand → UInt16}
    {index : Nat} (w : UInt16) (hps : pieces[index]? = some ps)
    (h : (position, operand) ∈ Piece.links 0 ps) :
    (chunksFor value pieces).modify index (·.patch position w) =
      chunksFor (fun i => if i = index then Piece.setWord (value i) position operand w else value i)
        pieces := by
  apply ext_getElem?
  intro i
  rw [getElem?_modify, getElem?_chunksFor, getElem?_chunksFor, Option.map_eq_map,
    Option.map_map]
  refine Option.map_congr fun e he => ?_
  by_cases hi : index = i
  · subst hi
    obtain ⟨hp, -⟩ := getElem?_zip_eq_some.1 he
    rw [hps] at hp
    cases hp
    simp [Function.comp_apply, patch, ← Piece.written_set (branchWord pieces) w h,
      Nat.sub_zero]
  · simp [Function.comp_apply, if_neg hi, if_neg (Ne.symm hi)]

end Chunk

namespace Lowering

/-- **A body is assembled** into its chunks, with a placeholder for every open operand; its branches
go to instructions whose offsets are words. -/
theorem assemble_ok {l : Lowering} {body : LoweredBody} {chunks : Array Chunk}
    (h : l.assemble body = .ok chunks) :
    chunks.toList =
        Chunk.chunksFor (fun _ _ _ => Opcode.placeholder) body.pieces.toList ∧
      ∀ ps ∈ body.pieces.toList, ∀ t, .branch t ∈ ps →
        (Chunk.offsets body.pieces.toList)[t]? =
          some (Chunk.branchWord body.pieces.toList t).toNat := by
  have hword : ∀ {index t : Nat} {w : UInt16},
      l.branchOffset (offsets body.pieces.toList).toArray index t = .ok w →
      branchWord body.pieces.toList t = w ∧
        (offsets body.pieces.toList)[t]? = some w.toNat := by
    intro index t w ht
    unfold branchOffset at ht
    rw [getElem?_toArray] at ht
    cases ho : (offsets body.pieces.toList)[t]? with
    | none => simp [ho] at ht
    | some offset =>
      simp only [ho] at ht
      cases hw : word16? offset with
      | none => simp [hw] at ht
      | some w' =>
        simp only [hw] at ht
        cases ht
        rw [branchWord, ho, word16?_toNat hw]
        exact ⟨(word16?_eq_some.1 hw).2, rfl⟩
  obtain ⟨cs, hcs, h⟩ := except_bind_ok.1 h
  rw [except_pure_ok] at h
  subst h
  have hall := except_mapM_ok.1 hcs
  refine ⟨?_, fun ps hps t ht => ?_⟩
  · refine (forall₂_eq_eq_eq ▸ forall₂_map_left_iff.2 (hall.imp fun e chunk he => ?_) :
      chunksFor _ _ = cs).symm
    obtain ⟨parts, hparts, he⟩ := except_bind_ok.1 he
    rw [except_pure_ok] at he
    subst he
    have hflat : ∀ {ps : List Piece} {parts : List (List UInt8)},
        List.Forall₂ (fun p bs => p.encode (l.branchOffset
          (offsets body.pieces.toList).toArray e.2) = .ok bs) ps parts →
        parts.flatten = ps.flatMap (Piece.bytesFor (branchWord body.pieces.toList)
          fun _ => Opcode.placeholder) := by
      intro ps parts h
      induction h with
      | nil => rfl
      | cons hp _ ih =>
        rw [flatten_cons, flatMap_cons, ih,
          Piece.encode_ok (fun t w ht => (hword ht).1) hp]
    dsimp only at hparts ⊢
    rw [Piece.written_const, hflat (except_mapM_ok.1 hparts)]
  · obtain ⟨i, hi⟩ := mem_iff_getElem?.1 hps
    have hlt : i < (offsets body.pieces.toList).length := by
      rw [length_offsets]
      exact (List.getElem?_eq_some_iff.1 hi).1
    have hmem : ((ps, (offsets body.pieces.toList)[i]), i) ∈
        (body.pieces.toList.zip (offsets body.pieces.toList)).zipIdx := by
      rw [mem_zipIdx_iff_getElem?, getElem?_zip_eq_some]
      exact ⟨hi, getElem?_eq_getElem hlt⟩
    obtain ⟨chunk, -, hchunk⟩ := forall₂_mem_right (List.Forall₂.flip hall) _ hmem
    obtain ⟨parts, hparts, -⟩ := except_bind_ok.1 hchunk
    obtain ⟨bs, -, hbs⟩ := forall₂_mem_right (List.Forall₂.flip (except_mapM_ok.1 hparts)) _ ht
    obtain ⟨w, hw, -⟩ := except_map_ok.1 hbs
    rw [(hword hw).1]
    exact (hword hw).2

end Lowering

end DeviceCode
