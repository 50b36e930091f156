import DeviceCode.Proofs.Machine.Perform
import DeviceCode.Proofs.Machine.Method

/-!
# Where a frame stands in its code

`Machine.Stands v P pc`: the position is the start of an instruction with the property `P`, or the end of
the code. A direct virtual call starts with a byte of its own; behind that byte a frame still stands
before the call. Main statements: `MethodAt.exits_of_plain` and its companions, from an instruction
control goes on to where its successors stand.
-/

namespace DeviceCode

open List

namespace Machine

/-- The position is the end of the code, or the code of an instruction with the property starts there,
or it lies behind the byte that leads in such an instruction, which is a direct virtual call. -/
def Stands (v : MethodView) (P : Nat → Prop) (pc : Nat) : Prop :=
  pc = v.method.code.size ∨ ∃ i offset instruction o, v.OperationAt i offset instruction o ∧ P i ∧
    (pc = offset ∨ pc = offset + 1 ∧
      MachineOp.byteAt? v.method.code offset = some Opcode.callvirtDirect.byte ∧
      ∃ callee, instruction.op = .call true callee)

section
variable {m : Machine} {c : BuildContext} {r : Registry} {t : TypeTables} {index : Nat}
  {v : MethodView} (h : m.MethodAt c r t index v) {P : Nat → Prop}
include h

theorem MethodAt.stands {i pc : Nat} (hi : P i) (hpc : v.entry.offset? i = some pc) :
    Stands v P pc := by
  have hlt : i < v.body.code.size := by
    rw [h.installed.offset?_eq] at hpc
    have hlt := (List.getElem?_eq_some_iff.1 hpc).1
    rwa [Chunk.length_offsets, length_map, h.installed.length_ops] at hlt
  obtain ⟨offset, o, hat⟩ := h.operationAt (Array.getElem?_eq_getElem hlt)
  refine .inr ⟨i, offset, _, o, hat, hi, .inl ?_⟩
  rw [hat.offset] at hpc
  exact (Option.some.inj hpc).symm

/-- A method starts with its first instruction; a body without instructions has none. -/
theorem MethodAt.stands_start (hstart : 0 < v.body.code.size → P 0) : Stands v P 0 := by
  by_cases hpos : 0 < v.body.code.size
  · exact h.stands (hstart hpos) (h.installed.first_offset hpos)
  · exact .inl (h.installed.size_code_of_empty h.record.code (by omega)).symm

variable {i offset target : Nat} {instruction : Instruction} {o : LoweredOp}
  (hat : v.OperationAt i offset instruction o)
  (hP : ∀ j ∈ instruction.op.successors i v.body.code.size, P j) {mop : MachineOp}
include hat hP

theorem MethodAt.stands_target (ht : target ∈ instruction.op.targets) :
    Stands v P (v.branchWord target).toNat :=
  h.stands (hP target (mem_append_left _ ht)) (h.offset_of_target hat ht)

theorem MethodAt.stands_next (hflow : instruction.op.endsFlow = false) :
    Stands v P (offset + Piece.totalSize o.pieces) := by
  have hlt := (Array.getElem?_eq_some_iff.1 hat.there).1
  obtain ⟨hnext, hlast⟩ := h.next_offset hat
  by_cases hend : i + 1 = v.body.code.size
  · exact .inl (hlast hend)
  · have hsuccessor : i + 1 ∈ instruction.op.successors i v.body.code.size := by
      rw [Op.successors, hflow, mem_append]
      exact .inr (by simp; omega)
    exact h.stands (hP _ hsuccessor) (hnext (by omega))

theorem MethodAt.exits_of_next (hexits : ∀ next, exits v.method.code next mop = [next])
    (hflow : instruction.op.endsFlow = false) :
    ∀ pc ∈ exits v.method.code (offset + Piece.totalSize o.pieces) mop, Stands v P pc := by
  intro pc hpc
  rw [hexits, mem_singleton] at hpc
  rw [hpc]
  exact h.stands_next hat hP hflow

theorem MethodAt.exits_of_branch
    (hexits : ∀ next, exits v.method.code next mop = [(v.branchWord target).toNat, next])
    (htarget : target ∈ instruction.op.targets) (hflow : instruction.op.endsFlow = false) :
    ∀ pc ∈ exits v.method.code (offset + Piece.totalSize o.pieces) mop, Stands v P pc := by
  intro pc hpc
  rw [hexits, mem_cons, mem_singleton] at hpc
  rcases hpc with rfl | rfl
  · exact h.stands_target hat hP htarget
  · exact h.stands_next hat hP hflow

theorem MethodAt.exits_of_plain (hop : MachineOp.ofPlain? v.branchWord instruction.op = some mop) :
    ∀ pc ∈ exits v.method.code (offset + Piece.totalSize o.pieces) mop, Stands v P pc := by
  obtain ⟨op, line⟩ := instruction
  cases op with
  | ret =>
    cases hop
    intro pc hpc
    simp [Machine.exits] at hpc
  | jump target =>
    cases hop
    intro pc hpc
    rw [Machine.exits, mem_singleton] at hpc
    rw [hpc]
    exact h.stands_target hat hP (by simp [Op.targets])
  | jumpIf sense target | jumpCmp cmp unsigned target =>
    cases hop
    exact h.exits_of_branch hat hP (fun _ => rfl) (by simp [Op.targets]) rfl
  | nop | const | null | dup | pop | binary | neg | not | conv | convUnsignedToFloat | compare =>
    cases hop
    exact h.exits_of_next hat hP (fun _ => rfl) rfl
  | _ => cases hop

theorem MethodAt.exits_of_switch {targets : List UInt64} (hop : instruction.op = .switch targets)
    (table : ∀ (k : Nat) t, targets[k]? = some t →
      MachineOp.wordAt? v.method.code (offset + 3 + 2 * k) = some (v.branchWord t.toNat)) :
    ∀ pc ∈ exits v.method.code (offset + Piece.totalSize o.pieces)
      (.switch (offset + 3) targets.length), Stands v P pc := by
  intro pc hpc
  rw [Machine.exits, mem_cons] at hpc
  rcases hpc with rfl | hpc
  · exact h.stands_next hat hP (by rw [hop]; rfl)
  · obtain ⟨k, hk, rfl⟩ := mem_map.1 hpc
    rw [mem_range] at hk
    rw [table k _ (getElem?_eq_getElem hk)]
    refine h.stands_target hat hP ?_
    rw [hop]
    exact mem_map.2 ⟨_, getElem_mem hk, rfl⟩

end

end Machine

end DeviceCode
