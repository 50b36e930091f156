import DeviceCode.Proofs.Chunk
import DeviceCode.Proofs.Registry.Lowered

/-!
# Descriptors that instructions wait for

The id of a descriptor is known at the link. `Lowering.Mentions.within`: the descriptors that the code of
an instruction waits for are those of types that the instruction mentions, of its operand or of the
field that the operand resolves to.
-/

namespace DeviceCode

open List

variable {lowered : LoweredOp} {index : Nat} {r r' : Registry}

/-! ## Pieces -/

/-- The piece waits for no descriptor, or for that of a type in `T`. -/
def Piece.Within (T : TypeRef → Prop) : Piece → Prop
  | link (.descriptorId t) => T t
  | _ => True

theorem Piece.mem_of_links {position : Nat} {operand : LinkOperand} :
    ∀ {start : Nat} {pieces : List Piece}, (position, operand) ∈ links start pieces →
      link operand ∈ pieces
  | _, [], h => by simp [links] at h
  | start, p :: rest, h => by
    cases p with
    | link o =>
      rw [links, mem_cons] at h
      rcases h with ⟨-, rfl⟩ | h
      · exact mem_cons_self
      · exact mem_cons_of_mem _ (mem_of_links h)
    | _ =>
      exact mem_cons_of_mem _ (mem_of_links h)

/-! ## Instructions -/

namespace Lowering

variable {l : Lowering} {T : TypeRef → Prop} {op : Op}

theorem within_callCode (key : String) (target : CallTarget) :
    ∀ piece ∈ callCode key target, piece.Within T := by
  cases target <;> simp [callCode, Piece.Within]

theorem within_lowerPlain (h : l.lowerPlain index op = .ok lowered) :
    ∀ piece ∈ lowered.pieces, piece.Within T := by
  obtain ⟨opcode, hplain⟩ := lowerPlain_plain h
  obtain ⟨rest, hrest, hlinks⟩ := hplain.pieces
  intro piece hpiece
  cases piece with
  | link operand =>
    rw [hrest] at hpiece
    exact absurd ((mem_cons.1 hpiece).resolve_left (by simp)) (hlinks operand)
  | _ => trivial

theorem ClassPiece.within {piece : Piece} (h : ClassPiece piece) : piece.Within T := by
  obtain ⟨w, rfl⟩ | ⟨key, rfl⟩ := h <;> trivial

theorem within_lowerField {isStatic : Bool} {access : Access} {f : FieldRef}
    (hT : ∀ {resolved}, l.program.resolveField
      { f with owner := f.owner.substitute l.typeArgs } = .ok resolved → T resolved.type)
    (h : l.lowerField isStatic access f r = .ok lowered r') :
    ∀ piece ∈ lowered.pieces, piece.Within T := by
  obtain ⟨resolved, storage, hresolved, -, -, rfl⟩ := lowerField_eq h
  refine forall_mem_cons.2 ⟨trivial, forall_mem_cons.2 ⟨trivial,
    forall_mem_cons.2 ⟨trivial, forall_mem_singleton.2 ?_⟩⟩⟩
  split
  · exact hT hresolved
  · split <;> trivial

/-- **An instruction waits for the descriptors of types that it mentions.** -/
theorem Mentions.within {S : Op → Prop} (hT : l.Mentions S T) (hop : S op)
    (h : l.lowerOp index op r = .ok lowered r') : ∀ piece ∈ lowered.pieces, piece.Within T := by
  have class_ : ∀ {opcode : Opcode} {type : TypeRef}, l.lowerClassOp opcode type r = .ok lowered r' →
      ∀ piece ∈ lowered.pieces, piece.Within T := by
    intro opcode type h
    obtain ⟨piece, r₁, hpiece, h⟩ := state_bind_ok.1 h
    obtain ⟨rfl, -⟩ := state_pure_ok.1 h
    exact forall_mem_cons.2 ⟨trivial,
      forall_mem_singleton.2 (classPiece_ok hpiece).2.within⟩
  have descriptor : ∀ {opcode : Opcode} {type : TypeRef}, T (type.substitute l.typeArgs) →
      l.lowerDescriptorOp opcode type r = .ok lowered r' →
      ∀ piece ∈ lowered.pieces, piece.Within T := by
    intro opcode type ht h
    obtain ⟨-, rfl⟩ := lowerDescriptorOp_ok h
    exact forall_mem_cons.2 ⟨trivial, forall_mem_singleton.2 ht⟩
  have operand := fun {t} => hT.operand (t := t) hop
  unfold lowerOp at h
  split at h
  · obtain ⟨target, r₁, -, h⟩ := state_bind_ok.1 h
    obtain ⟨_, r₂, -, h⟩ := state_bind_ok.1 h
    obtain ⟨call, r₃, hcall, h⟩ := state_bind_ok.1 h
    obtain ⟨-, key, rfl⟩ := callPieces_ok hcall
    obtain ⟨rfl, -⟩ := state_pure_ok.1 h
    exact forall_mem_cons.2 ⟨trivial, within_callCode key target⟩
  · exact class_ h
  · exact class_ h
  · obtain ⟨target, key, classId, ret, r₁, -, -, hclass, rfl⟩ := lowerNewObject_eq h
    exact forall_mem_cons.2 ⟨trivial,
      forall_mem_cons.2 ⟨hclass.within, within_callCode key target⟩⟩
  · exact descriptor (operand mem_cons_self) h
  · exact descriptor (operand mem_cons_self) h
  · exact descriptor (operand mem_cons_self) h
  · exact descriptor (operand mem_cons_self) h
  · refine within_lowerField (fun {resolved} hresolved => ?_) h
    obtain ⟨hdeclaring, hd, hf⟩ :=
      Program.resolveField_inherits hT.inherits hresolved (operand mem_cons_self)
    exact hT.field hdeclaring hd hf
  · obtain ⟨target, key, storage, r₁, -, -, -, rfl⟩ := lowerCall_eq h
    split
    · exact forall_mem_cons.2 ⟨trivial, within_callCode key target⟩
    · exact within_callCode key target
  · exact within_lowerPlain (state_ofExcept_ok.1 h).1

theorem descriptor_of_fixups {pieces : List Piece} (h : ∀ piece ∈ pieces, piece.Within T)
    {f : Fixup} (hf : f ∈ l.fixupsOf index pieces) {t : TypeRef} (ht : f.operand = .descriptorId t) :
    T t := by
  obtain ⟨⟨position, operand⟩, hlink, rfl⟩ := mem_map.1 hf
  have hmem := h _ (Piece.mem_of_links hlink)
  dsimp only at ht
  rw [ht] at hmem
  exact hmem

end Lowering

end DeviceCode
