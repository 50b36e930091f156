import DeviceCode.Machine
import DeviceCode.Proofs.LinkedCode

/-!
# What the machine makes of lowered code

`MachineOp.Decoded`: the instruction that the machine decodes where the bytes of a lowered operation
stand. Operations that work on scalars are decoded as themselves, with their operands and with the
offsets that branches were given; all others are refused. Main statements: `decoded_of_lowers` for
one operation, `Registry.Installed.decoded` for those of an installed method, and
`Registry.Installed.next_offset` for where the next one starts.
-/

namespace DeviceCode

open Lowering

open Piece

open List

variable {w : UInt16} {o : Opcode} {p id : Piece} {rest : List Piece} {op : Op} {tag : Tag}
  {lowered : LoweredOp} {index start offset : Nat} {key : String}

namespace MachineOp

/-! ## Reading bytes that stand in the code -/

section
variable {code : Array UInt8} {position : Nat}

theorem byteAt?_of_holds {b : UInt8} (h : Holds code position [b]) :
    byteAt? code position = some b := h.getElem? (i := 0) (by simp)

theorem wordAt?_of_holds (h : Holds code position (Word.bytes16 w)) :
    wordAt? code position = some w := by
  have h₀ := h.getElem? (i := 0) (by simp)
  have h₁ := h.getElem? (i := 1) (by simp)
  rw [Nat.add_zero] at h₀
  simp only [wordAt?, h₀, h₁]
  exact congrArg some (Word.ofBytes16_bytes16 w)

theorem doubleAt?_of_holds {w : UInt32} (h : Holds code position (Word.bytes32 w)) :
    doubleAt? code position = some w := by
  have h₀ := h.getElem? (i := 0) (by simp)
  have h₁ := h.getElem? (i := 1) (by simp)
  have h₂ := h.getElem? (i := 2) (by simp)
  have h₃ := h.getElem? (i := 3) (by simp)
  rw [Nat.add_zero] at h₀
  simp only [doubleAt?, h₀, h₁, h₂, h₃]
  exact congrArg some (Word.ofBytes32_bytes32 w)

theorem decode?_of_byteAt? (h : byteAt? code position = some o.byte) :
    decode? code position = operands? code (position + 1) o := by
  simp [decode?, h]

theorem decode?_of_holds (h : Holds code position [o.byte]) :
    decode? code position = operands? code (position + 1) o :=
  decode?_of_byteAt? (byteAt?_of_holds h)

variable {branchWord : Nat → UInt16} {value : Nat → LinkOperand → UInt16}

theorem holds_written_cons
    (h : Holds code position (Piece.written branchWord value start (p :: rest))) :
    Holds code position (p.bytesFor branchWord (value start)) ∧
      Holds code (position + p.size)
        (Piece.written branchWord value (start + p.size) rest) := by
  rw [written, Holds.append, length_bytesFor] at h
  exact h

end

/-! ## Operations -/

/-- The value of a constant. -/
def constantValue : Constant → Value
  | .i4 v => .i4 v
  | .i8 v => .i4 v.toInt32
  | .r4 bits => .r4 bits
  | .r8 bits => .r4 (Binary32.ofBinary64 bits)

/-- The instruction of the machine that an operation with constant operands is. -/
def ofPlain? (branchWord : Nat → UInt16) : Op → Option MachineOp
  | .nop => some nop
  | .const c => some (const (constantValue c))
  | .null => some (const .null)
  | .dup => some dup
  | .pop => some pop
  | .ret => some ret
  | .jump t => some (jump (branchWord t.toNat).toNat)
  | .jumpIf sense t => some (jumpIf sense (branchWord t.toNat).toNat)
  | .jumpCmp cmp unsigned t => some (jumpTest (cmp.branchTest unsigned) (branchWord t.toNat).toNat)
  | .binary b => some (binary b.byte)
  | .neg => some neg
  | .not => some complement
  | .conv p => some (convert p.conversion)
  | .convUnsignedToFloat => some (convert .fromUnsigned)
  | .compare relation unsigned => some (compare (relation.valueTest unsigned))
  | _ => none

/-- What the machine decodes where the bytes of an operation stand, up to `next`. -/
inductive Decoded (l : Lowering) (branchWord : Nat → UInt16) (value : Nat → LinkOperand → UInt16)
    (code : Array UInt8) (offset next : Nat) : Op → Site → Prop
  | plain {op : Op} {mop : MachineOp} (simple : ofPlain? branchWord op = some mop)
    (decoded : decode? code offset = some (mop, next)) :
    Decoded l branchWord value code offset next op .plain
  | load {area : Area} {n : UInt16} {s : Slot} (slot : l.slot area n = .ok s)
    (decoded : decode? code offset = some (.load area s.offset.toNat, next)) :
    Decoded l branchWord value code offset next (.slot area .load n) .plain
  | store {area : Area} {n : UInt16} {s : Slot} (slot : l.slot area n = .ok s)
    (decoded : decode? code offset = some (.store area s.offset.toNat, next)) :
    Decoded l branchWord value code offset next (.slot area .store n) .plain
  | switch {targets : List UInt64}
    (decoded : decode? code offset = some (.switch (offset + 3) targets.length, next))
    (table : ∀ (k : Nat) t, targets[k]? = some t →
      wordAt? code (offset + 3 + 2 * k) = some (branchWord t.toNat)) :
    Decoded l branchWord value code offset next (.switch targets) .plain
  | loadStatic {isStatic : Bool} {f : FieldRef} {key : String} {host : Bool} {tag : Tag}
    (decoded : decode? code offset =
      some (.loadStatic (value 2 (.fieldOffset key)).toNat, next)) :
    Decoded l branchWord value code offset next (.field isStatic .load f) (.field key true host tag)
  | storeStatic {isStatic : Bool} {f : FieldRef} {key : String} {host : Bool} {tag : Tag}
    (decoded : decode? code offset =
      some (.storeStatic (value 2 (.fieldOffset key)).toNat, next)) :
    Decoded l branchWord value code offset next (.field isStatic .store f) (.field key true host tag)
  | call {isVirtual : Bool} {m : MethodRef} {k pops : Nat} {storage : Option Storage}
    (lead : isVirtual = true → byteAt? code offset = some Opcode.callvirtDirect.byte)
    (decoded : decode? code (offset + isVirtual.toNat) = some (.call k, next)) :
    Decoded l branchWord value code offset next (.call isVirtual m) (.call (.user k) pops storage)
  | callBuiltin {isVirtual : Bool} {m : MethodRef} {id : UInt16} {pops : Nat}
    {storage : Option Storage}
    (lead : isVirtual = true → byteAt? code offset = some Opcode.callvirtDirect.byte)
    (decoded : decode? code (offset + isVirtual.toNat) = some (.callBuiltin id, next)) :
    Decoded l branchWord value code offset next (.call isVirtual m)
      (.call (.builtin id) pops storage)
  | refused {op : Op} {site : Site} {name : String} {n : Nat}
    (decoded : decode? code offset = some (.unsupported name, n)) :
    Decoded l branchWord value code offset next op site

section
variable {l : Lowering} {branchWord : Nat → UInt16} {value : Nat → LinkOperand → UInt16}
  {code : Array UInt8}

theorem refused_of_holds {next : Nat} {site : Site}
    (ho : ∀ position, operands? code position o = some (.unsupported o.name, position))
    (h : Holds code offset (Piece.written branchWord value 0 (.opcode o :: rest))) :
    Decoded l branchWord value code offset next op site :=
  .refused ((decode?_of_holds (holds_written_cons h).1).trans (ho _))

theorem plain_of_holds {mop : MachineOp}
    (ho : ∀ position, operands? code position o = some (mop, position))
    (hop : ofPlain? branchWord op = some mop)
    (h : Holds code offset (Piece.written branchWord value 0 [.opcode o])) :
    Decoded l branchWord value code offset (offset + 1) op .plain :=
  .plain hop ((decode?_of_holds (holds_written_cons h).1).trans (ho _))

theorem decode?_word {mop : Nat → MachineOp} (ho : ∀ position, operands? code position o =
      (wordAt? code position).bind fun w => some (mop w.toNat, position + 2))
    (hp : p.bytesFor branchWord (value 1) = Word.bytes16 w)
    (h : Holds code offset (Piece.written branchWord value 0 [.opcode o, p])) :
    decode? code offset = some (mop w.toNat, offset + 3) := by
  obtain ⟨hopcode, h⟩ := holds_written_cons h
  obtain ⟨hword, -⟩ := holds_written_cons h
  rw [decode?_of_holds hopcode, ho]
  have hword : Holds code (offset + 1) (Word.bytes16 w) := hp ▸ hword
  rw [wordAt?_of_holds hword]
  rfl

theorem decode?_stloc (h : Holds code offset
      (Piece.written branchWord value 0 [.opcode .stloc, .byte tag.id, .word w])) :
    decode? code offset = some (.store .locals w.toNat, offset + 4) := by
  obtain ⟨hopcode, h⟩ := holds_written_cons h
  obtain ⟨htag, h⟩ := holds_written_cons h
  obtain ⟨hword, -⟩ := holds_written_cons h
  have htag : byteAt? code (offset + 1) = some tag.id := byteAt?_of_holds htag
  have hword : wordAt? code (offset + 1 + 1) = some w := wordAt?_of_holds hword
  rw [decode?_of_holds hopcode]
  simp only [operands?, htag, hword]
  rfl

theorem decode?_ldc {w : UInt32}
    (h : Holds code offset (Piece.written branchWord value 0 (Lowering.constantOp.pieces tag w))) :
    decode? code offset =
      some (.const (if tag.id = Tag.f32.id then .r4 w else .i4 w.toInt32), offset + 6) := by
  obtain ⟨hopcode, h⟩ := holds_written_cons h
  obtain ⟨htag, h⟩ := holds_written_cons h
  obtain ⟨hword, -⟩ := holds_written_cons h
  have htag : byteAt? code (offset + 1) = some tag.id := byteAt?_of_holds htag
  have hword : doubleAt? code (offset + 1 + 1) = some w := doubleAt?_of_holds hword
  rw [decode?_of_holds hopcode]
  simp only [operands?, htag, hword]
  rfl

theorem decoded_const {c : Constant}
    (h : Holds code offset (Piece.written branchWord value 0 (Lowering.constantOp c).pieces)) :
    Decoded l branchWord value code offset
      (offset + Piece.totalSize (Lowering.constantOp c).pieces) (.const c) .plain := by
  cases c with
  | i4 v | i8 v => exact .plain rfl ((decode?_ldc h).trans (by rfl))
  | r4 bits | r8 bits => exact .plain rfl (decode?_ldc h)

theorem totalSize_branches : ∀ targets : List UInt64,
    Piece.totalSize (targets.map fun t => .branch t.toNat) = 2 * targets.length
  | [] => rfl
  | t :: targets => by
    rw [map_cons, totalSize, totalSize_branches targets, length_cons, size]
    omega

theorem wordAt?_branches : ∀ {targets : List UInt64} {position start : Nat},
    Holds code position
      (Piece.written branchWord value start (targets.map fun t => .branch t.toNat)) →
    ∀ (k : Nat) t, targets[k]? = some t →
      wordAt? code (position + 2 * k) = some (branchWord t.toNat)
  | [], _, _, _, k, t, ht => by simp at ht
  | t :: targets, position, start, h, 0, t', ht => by
    cases ht
    exact wordAt?_of_holds (holds_written_cons h).1
  | t :: targets, position, start, h, k + 1, t', ht => by
    have hrest := wordAt?_branches (holds_written_cons h).2 k t' ht
    rw [size] at hrest
    rw [← hrest]
    congr 1
    omega

theorem decoded_switch {targets : List UInt64} {count : UInt16} (hc : count.toNat = targets.length)
    (h : Holds code offset (Piece.written branchWord value 0
      (.opcode .switch :: .word count :: targets.map fun t => .branch t.toNat))) :
    Decoded l branchWord value code offset (offset + (3 + 2 * targets.length)) (.switch targets)
      .plain := by
  have hsize := h.size_le
  rw [length_written, totalSize, totalSize, totalSize_branches] at hsize
  simp only [size] at hsize
  obtain ⟨hopcode, h⟩ := holds_written_cons h
  obtain ⟨hcount, h⟩ := holds_written_cons h
  refine .switch ?_ (wordAt?_branches h)
  have hcount : wordAt? code (offset + 1) = some count := wordAt?_of_holds hcount
  rw [decode?_of_holds hopcode]
  simp only [operands?, hcount, hc, Option.bind_eq_bind, Option.bind_some]
  rw [if_pos (by omega)]
  simp only [Option.some.injEq, Prod.mk.injEq, true_and]
  omega

/-- What the machine decodes for an operation that needs neither the registry nor a layout. -/
theorem decoded_of_plain (h : l.lowerPlain index op = .ok lowered)
    (hold : Holds code offset (Piece.written branchWord value 0 lowered.pieces)) :
    Decoded l branchWord value code offset (offset + Piece.totalSize lowered.pieces) op
      lowered.site := by
  rw [site_of_plain h]
  cases op with
  | slot area access n =>
    obtain ⟨s, hs, h⟩ := except_bind_ok.1 h
    rw [except_pure_ok] at h
    subst h
    cases area <;> cases access
    · exact .load hs (decode?_word (fun _ => rfl) rfl hold)
    · exact refused_of_holds (fun _ => rfl) hold
    · exact .store hs (decode?_word (fun _ => rfl) rfl hold)
    · exact .load hs (decode?_word (fun _ => rfl) rfl hold)
    · exact refused_of_holds (fun _ => rfl) hold
    · exact .store hs (decode?_stloc hold)
  | const c =>
    cases h
    exact decoded_const hold
  | text s =>
    obtain ⟨pieces, hp, h⟩ := except_bind_ok.1 h
    rw [except_pure_ok] at h
    subst h
    unfold textPieces at hp
    dsimp only at hp
    split at hp
    · cases hp
      exact refused_of_holds (fun _ => rfl) hold
    · cases hp
  | switch targets =>
    obtain ⟨pieces, hp, h⟩ := except_bind_ok.1 h
    rw [except_pure_ok] at h
    subst h
    unfold switchPieces at hp
    split at hp
    · rename_i count hcount
      cases hp
      have hsize : totalSize (opcode .switch :: .word count ::
          targets.map fun t => .branch t.toNat) = 3 + 2 * targets.length := by
        rw [totalSize, totalSize, totalSize_branches]
        simp only [size]
        omega
      rw [hsize]
      exact decoded_switch (word16?_toNat hcount) hold
    · cases hp
  | jump t | jumpCmp cmp unsigned t =>
    cases h
    exact .plain rfl (decode?_word (fun _ => rfl) rfl hold)
  | jumpIf sense t =>
    cases h
    cases sense <;> exact .plain rfl (decode?_word (fun _ => rfl) rfl hold)
  | binary b =>
    cases h
    obtain ⟨hopcode, hold⟩ := holds_written_cons hold
    obtain ⟨hbyte, -⟩ := holds_written_cons hold
    have hbyte : byteAt? code (offset + 1) = some b.byte := byteAt?_of_holds hbyte
    refine .plain rfl ?_
    rw [decode?_of_holds hopcode]
    simp only [operands?, hbyte]
    rfl
  | loadThrough pointee | storeThrough pointee =>
    cases pointee <;> (cases h; exact refused_of_holds (fun _ => rfl) hold)
  | loadElement kind | storeElement kind =>
    obtain ⟨rest, hrest, -⟩ := (elementOp_plain h).pieces
    rw [hrest] at hold
    exact refused_of_holds (fun _ => rfl) hold
  | callIndirect params returns =>
    obtain ⟨pieces, hp, h⟩ := except_bind_ok.1 h
    rw [except_pure_ok] at h
    subst h
    unfold indirectPieces at hp
    split at hp
    · cases hp
      exact refused_of_holds (fun _ => rfl) hold
    · cases hp
  | _ =>
    cases h <;> first
      | exact plain_of_holds (fun _ => rfl) rfl hold
      | exact refused_of_holds (fun _ => rfl) hold

/-! ## Fields and calls -/

theorem wordAt?_of_le {position : Nat} (h : position + 2 ≤ code.size) :
    ∃ w, wordAt? code position = some w := by
  rw [wordAt?, Array.getElem?_eq_getElem (by omega), Array.getElem?_eq_getElem (by omega)]
  exact ⟨_, rfl⟩

theorem decode?_field {flags : UInt8} (hid : id.size = 2) {op : Nat → MachineOp}
    (ho : ∀ position, operands? code position o = field? code position o op)
    (h : Holds code offset (Piece.written branchWord value 0
      [.opcode o, .byte flags, .link (.fieldOffset key), id])) :
    decode? code offset = some
      (if flags &&& Opcode.fieldStatic = 0 then .unsupported o.name
        else op (value 2 (.fieldOffset key)).toNat, offset + 6) := by
  have hsize := h.size_le
  rw [length_written] at hsize
  simp only [totalSize, hid] at hsize
  simp only [size] at hsize
  obtain ⟨hopcode, h⟩ := holds_written_cons h
  obtain ⟨hflags, h⟩ := holds_written_cons h
  obtain ⟨hword, -⟩ := holds_written_cons h
  have hflags : byteAt? code (offset + 1) = some flags := byteAt?_of_holds hflags
  have hword : wordAt? code (offset + 1 + 1) = some (value 2 (.fieldOffset key)) :=
    wordAt?_of_holds hword
  obtain ⟨w, hw⟩ := wordAt?_of_le (show offset + 1 + 3 + 2 ≤ code.size by omega)
  rw [decode?_of_holds hopcode, ho]
  simp only [field?, hflags, hword, hw, Option.bind_eq_bind, Option.bind_some]
  split <;> rfl

theorem decoded_field {isStatic : Bool} {access : Access} {f : FieldRef}
    {inStaticRegion host : Bool} (region : isStatic || host → inStaticRegion) (hid : id.size = 2)
    (h : Holds code offset (Piece.written branchWord value 0
      [.opcode (Lowering.fieldOpcode access),
      .byte (Lowering.fieldFlags inStaticRegion host), .link (.fieldOffset key), id])) :
    Decoded l branchWord value code offset (offset + 6) (.field isStatic access f)
      (.field key inStaticRegion host tag) := by
  cases inStaticRegion with
  | true =>
    have hflag : ¬ fieldFlags true host &&& Opcode.fieldStatic = 0 := by
      cases host <;> decide
    cases access with
    | load => exact .loadStatic ((decode?_field hid (fun _ => rfl) h).trans (by rw [if_neg hflag]))
    | address => exact refused_of_holds (fun _ => rfl) h
    | store => exact .storeStatic ((decode?_field hid (fun _ => rfl) h).trans (by rw [if_neg hflag]))
  | false =>
    have hhost : host = false := by
      cases host with
      | false => rfl
      | true => simp at region
    subst hhost
    cases access with
    | load => exact .refused (decode?_field hid (fun _ => rfl) h)
    | address => exact refused_of_holds (fun _ => rfl) h
    | store => exact .refused (decode?_field hid (fun _ => rfl) h)

theorem decode?_call {k : Nat} (hk : k < 65536) (h : Holds code offset
      (Piece.written branchWord value start [.opcode .call, .word k.toUInt16])) :
    decode? code offset = some (.call k, offset + 3) := by
  obtain ⟨hopcode, h⟩ := holds_written_cons h
  have hword : wordAt? code (offset + 1) = some k.toUInt16 :=
    wordAt?_of_holds (holds_written_cons h).1
  rw [decode?_of_holds hopcode]
  simp [operands?, hword, Option.bind_eq_bind, Option.bind_some, toNat_toUInt16 hk]

theorem decode?_callBuiltin {id : UInt16} (h : Holds code offset
      (Piece.written branchWord value start [.opcode .callBuiltin, .word id])) :
    decode? code offset = some (.callBuiltin id, offset + 3) := by
  obtain ⟨hopcode, h⟩ := holds_written_cons h
  have hword : wordAt? code (offset + 1) = some id :=
    wordAt?_of_holds (holds_written_cons h).1
  rw [decode?_of_holds hopcode]
  simp [operands?, hword, Option.bind_eq_bind, Option.bind_some]

/-- A call through dispatch is refused; a virtual call that goes to its target directly has a byte
of its own before it. -/
theorem decoded_call {isVirtual : Bool} {m : MethodRef} {target : CallTarget}
    {storage : Option Storage} {pieces : List Piece}
    (hpieces : pieces = if isVirtual && !Lowering.isSlot target then
      .opcode .callvirtDirect :: Lowering.callCode key target
      else Lowering.callCode key target) (hword : ∀ k, Lowering.calleeOf target = some k → k < 65536)
    (h : Holds code offset (Piece.written branchWord value 0 pieces)) :
    Decoded l branchWord value code offset (offset + Piece.totalSize pieces) (.call isVirtual m)
      (.call target m.pops storage) := by
  subst hpieces
  cases target with
  | slot i => cases isVirtual <;> exact refused_of_holds (fun _ => rfl) h
  | user k =>
    cases isVirtual with
    | false => exact .call (by simp) (decode?_call (hword k rfl) h)
    | true =>
      obtain ⟨hlead, h⟩ := holds_written_cons h
      exact .call (fun _ => byteAt?_of_holds hlead) (decode?_call (hword k rfl) h)
  | builtin id =>
    cases isVirtual with
    | false => exact .callBuiltin (by simp) (decode?_callBuiltin h)
    | true =>
      obtain ⟨hlead, h⟩ := holds_written_cons h
      exact .callBuiltin (fun _ => byteAt?_of_holds hlead) (decode?_callBuiltin h)

/-- **What the machine decodes** where the bytes of a lowered operation stand. -/
theorem decoded_of_lowers (h : l.Lowers index op lowered)
    (hword : ∀ k, lowered.callee = some k → k < 65536)
    (hold : Holds code offset (Piece.written branchWord value 0 lowered.pieces)) :
    Decoded l branchWord value code offset (offset + Piece.totalSize lowered.pieces) op
      lowered.site := by
  cases h with
  | plain h => exact decoded_of_plain h hold
  | call isVirtual m target key storage wide => exact decoded_call rfl hword hold
  | field isStatic access f key inStaticRegion host tag id wide region size =>
    have htotal : totalSize [.opcode (fieldOpcode access),
        .byte (fieldFlags inStaticRegion host), .link (.fieldOffset key), id] = 6 := by
      simp only [totalSize, size]
      rfl
    rw [htotal]
    exact decoded_field region size hold
  | _ => exact refused_of_holds (fun _ => rfl) hold

end

end MachineOp

/-! ## Installed methods -/

namespace Registry.Installed

variable {c : BuildContext} {r : Registry} {t : TypeTables} {m : CompiledMethod} {d : MethodDef}
  {body : Body} {l : Lowering} {ops : List LoweredOp} {value : Nat → Nat → LinkOperand → UInt16}
  (h : Installed c r t m d body l ops value)
include h

variable {code : Array UInt8} (hcode : code.toList = m.code) {i : Nat}
include hcode

theorem size_code : code.size = total ((ops.map (·.pieces)).map Piece.totalSize) := by
  rw [← Array.length_toList, hcode, CompiledMethod.code, h.chunks, length_flatMap_total,
    Chunk.length_bytes_chunksFor]

theorem size_code_of_empty (hempty : body.code.size = 0) : code.size = 0 := by
  rw [← h.length_ops, length_eq_zero_iff] at hempty
  rw [h.size_code hcode, hempty]
  rfl

theorem holds {o : LoweredOp} (ho : ops[i]? = some o) (hoffset : m.offset? i = some offset) :
    Holds code offset
      (Piece.written (Chunk.branchWord (ops.map (·.pieces))) (value i) 0 o.pieces) := by
  rw [h.offset?_eq] at hoffset
  have hall : Holds code 0 (m.chunks.toList.flatMap (·.bytes)) :=
    ⟨[], [], by simp [hcode, CompiledMethod.code], rfl⟩
  rw [h.chunks] at hall
  have hzip : ((ops.map (·.pieces)).zip (Chunk.offsets (ops.map (·.pieces))))[i]? =
      some (o.pieces, offset) :=
    getElem?_zip_eq_some.2 ⟨by rw [getElem?_map, ho]; rfl, hoffset⟩
  have hplaced := hall.placed (_, offset) (mem_of_getElem? (i := i)
    (getElem?_zip_eq_some.2 ⟨by rw [Chunk.getElem?_chunksFor, hzip]; rfl, by
      rw [Chunk.length_bytes_chunksFor]
      exact hoffset⟩))
  exact hplaced

/-- The next operation starts where this one ends, and the last one ends with the code. -/
theorem next_offset {o : LoweredOp} (ho : ops[i]? = some o) (hoffset : m.offset? i = some offset) :
    (i + 1 < body.code.size → m.offset? (i + 1) = some (offset + Piece.totalSize o.pieces)) ∧
      (i + 1 = body.code.size → offset + Piece.totalSize o.pieces = code.size) := by
  rw [h.offset?_eq] at hoffset ⊢
  have hsize := h.size_code hcode
  have hsize' : ((ops.map (·.pieces)).map totalSize)[i]? = some (totalSize o.pieces) := by
    rw [getElem?_map, getElem?_map, ho]
    rfl
  obtain ⟨hnext, hlast⟩ := next_placement hoffset hsize'
  rw [length_map, length_map, h.length_ops] at hnext hlast
  rw [hsize, ← Nat.zero_add (total _)]
  exact ⟨hnext, hlast⟩

/-- **What the machine decodes at the offset of an instruction.** -/
theorem decoded {instruction : Instruction} {o : LoweredOp}
    (hi : body.code[i]? = some instruction) (ho : ops[i]? = some o)
    (hoffset : m.offset? i = some offset) :
    MachineOp.Decoded l (Chunk.branchWord (ops.map (·.pieces))) (value i) code offset
      (offset + Piece.totalSize o.pieces) instruction.op o.site := by
  obtain ⟨o', -, ho', -, -, hlowers⟩ := h.exists_op hi
  rw [ho] at ho'
  cases ho'
  exact MachineOp.decoded_of_lowers hlowers
    (fun k hk => (h.callees o (mem_of_getElem? ho) k hk).1) (h.holds hcode ho hoffset)

end Registry.Installed

end DeviceCode
