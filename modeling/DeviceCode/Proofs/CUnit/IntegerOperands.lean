import DeviceCode.Proofs.BuiltinIds
import DeviceCode.Proofs.CUnit.Signedness
import DeviceCode.Proofs.CUnit.Step

/-!
# Nested integer operands

The emitter makes integer operands from places and literals by its operations, in any nesting (`Built`).
`Op.isUnsigned` is the type that the usual arithmetic conversions of C give the expression of an operation.
The emitter records less: the bitwise operations and the functions of `Math` are unsigned beside an
unsigned operand, without a record of it. Main statement: `Built.exact`, by which the expression comes
to the value of the machine just where the operation on top fits its operands (`Op.Suits`).
`shift_of_mask_differs` is an operation that does not fit.
-/

namespace DeviceCode

open CNumber

variable {symbol : CSymbol} {extra : List String} {id : UInt16}

/-- The builtin that the instruction calls. -/
def CScope.builtin? (s : CScope) (index : Nat) : Option Builtin :=
  match s.method.sites[index]? with
  | some (.call (.builtin id) _ _) => s.builtins.get? id
  | _ => none

/-- The function of that builtin in C. -/
def CScope.function? (s : CScope) (index : Nat) : Option IntegerFunction := do
  let symbol ← (← s.builtin? index).native
  IntegerFunction.all.find? (·.symbol == symbol.symbol)

namespace Op

/-- What the machine computes. -/
def result? (s : CScope) (index : Nat) : Op → List Value → Option Value
  | .binary op, [v, w] => (Value.binary op.byte v w).toOption
  | .compare relation isUnsigned, [v, w] =>
    (Value.valueTest (relation.valueTest isUnsigned) v w).toOption.map .ofBool
  | .neg, [v] => v.neg.toOption
  | .not, [v] => v.complement.toOption
  | .conv p, [v] => (v.convert p.conversion).toOption
  | .call .., vs => do
    let b ← s.builtin? index
    if Library.arity b.signature = vs.length then
      Library.call b.signature (b.native.any (·.ret == .f32)) vs
    else none
  | _, _ => none

/-- The type of the expression in C. -/
def isUnsigned (s : CScope) (index : Nat) : Op → List CInteger → Bool
  | .binary op, [a, b] => op.isUnsigned a.isUnsigned b.isUnsigned a.misread
  | .not, [a] => a.misread
  | .conv p, _ => CType.ofTag? (Tag.ofPrimitive p) == some .u4
  | .call .., args => (s.function? index).any (·.isUnsigned args)
  | _, _ => false

/-- The operand has recorded that type. -/
def isRecorded : Op → Bool
  | .conv p => CType.ofTag? (Tag.ofPrimitive p) == some .u4
  | _ => false

/-- The operation has the same result in C as on the machine. A misread operand is shifted to the right
as the machine does if it is not negative, or does not move; beside one, integers of the same sign have
the same order. -/
def Suits (s : CScope) (index : Nat) : Op → List CInteger → Prop
  | .binary .shr, [a, b] => a.misread = true → 0 ≤ a.bits ∨ b.bits &&& 31 = 0
  | .compare relation false, [a, b] => relation ≠ .eq → (a.misread || b.misread) = true →
    (0 ≤ a.bits ↔ 0 ≤ b.bits)
  | .call .., args => ∀ fn, s.function? index = some fn → fn.Suits args
  | _, _ => True

end Op

/-- The integer operands that are built from places and literals by operations that fit. -/
inductive Built (s : CScope) (f : CFrame) : CInteger → Prop
  | read {place : CPlace} {type : CType} {v : CVar} {n : Int32} (integer : type.stackClass = .i4)
    (holds : f.get place = .ok (.ofBits (type == .u4) n)) :
    Built s f ⟨.ofPlace place type v, type == .u4, n⟩
  | int (n : Int32) : Built s f ⟨.int n, false, n⟩
  | apply {index : Nat} {op : Op} {args : List CInteger} {o : COperand} {n : Int32}
    (built : ∀ a ∈ args, Built s f a)
    (computes : CEmitter.Computes s index op (args.map (·.operand)) o) (integer : o.type = .i4)
    (value : op.result? s index (args.map fun a => .i4 a.bits) = some (.i4 n))
    (fits : op.Suits s index args) : Built s f ⟨o, op.isUnsigned s index args, n⟩

/-- The operand comes to its integer. -/
def CInteger.Holds (f : CFrame) (a : CInteger) : Prop := a.operand.Holds f a.isUnsigned a.bits

variable {s : CScope} {f : CFrame} {a b : CInteger} {args : List CInteger} {o : COperand} {n : Int32}
  {index : Nat}

/-! ## One operation -/

theorem binary_comesTo (s : CScope) (index : Nat) {op : BinaryOp} (ha : a.Holds f) (hb : b.Holds f)
    (h : COperand.binary op a.operand b.operand = .ok o)
    (hn : Value.integerOp a.bits b.bits op = .ok n) : o.native = .i4 ∧ ComesTo (o.expr.eval f)
      (op.isUnsigned a.isUnsigned b.isUnsigned a.misread) n ((Op.binary op).Suits s index [a, b]) := by
  simp [COperand.binary, ha.isInteger, hb.isInteger] at h
  subst h
  refine ⟨rfl, .of_ok (COperand.Holds.eval_intBinary ha hb hn) ?_⟩
  by_cases hshr : op = .shr ∧ a.operand.misread a.isUnsigned = true
  · obtain ⟨rfl, hmisread⟩ := hshr
    cases hn
    rw [if_pos ⟨rfl, hmisread⟩, shiftRight_unsigned_iff]
    exact ⟨fun h _ => h, fun h => h hmisread⟩
  · rw [if_neg hshr]
    refine ⟨fun _ => ?_, fun _ => rfl⟩
    cases op with
    | shr => exact fun hmisread => absurd ⟨rfl, hmisread⟩ hshr
    | _ => trivial

theorem compare_comesTo (s : CScope) (index : Nat) {relation : Relation} {isUnsigned : Bool}
    (ha : a.Holds f) (hb : b.Holds f)
    (h : COperand.compare relation.comparison isUnsigned a.operand b.operand = .ok o) :
    o.native = .i4 ∧ ComesTo (o.expr.eval f) false
      (if relation.comparison.holds isUnsigned a.bits b.bits then 1 else 0)
        ((Op.compare relation isUnsigned).Suits s index [a, b]) := by
  simp [COperand.compare, ha.isInteger, hb.isInteger] at h
  subst h
  refine ⟨rfl, .of_ok (COperand.Holds.eval_compareExpr relation.comparison isUnsigned ha hb) ?_⟩
  have hone : ∀ p q : Bool, ((if p then 1 else 0 : Int32) = if q then 1 else 0) ↔ p = q := by decide
  rw [hone]
  cases isUnsigned with
  | true => simp [Op.Suits]
  | false =>
    show _ ↔ (relation ≠ .eq → (a.misread || b.misread) = true → _)
    cases hmisread : a.operand.misread a.isUnsigned || b.operand.misread b.isUnsigned with
    | false => simp [CInteger.misread, hmisread]
    | true =>
      cases relation with
      | eq => simp [Relation.comparison, Comparison.holds]
      | gt | lt => simpa [CInteger.misread, hmisread] using Comparison.holds_unsigned_iff rfl a.bits b.bits

theorem convert_comesTo {p : Primitive} {type : CType} (ha : a.Holds f)
    (htype : CType.ofTag? (Tag.ofPrimitive p) = some type) (h : a.operand.convert type = .ok o)
    (hint : o.type = .i4) (hn : Value.convert (.i4 a.bits) p.conversion = .ok (.i4 n)) :
    o.native = type ∧ ComesTo (o.expr.eval f) (type == .u4) n True := by
  simp [COperand.convert, ha.isInteger] at h
  subst h
  have heval : (CExpr.paren (.cast type a.operand.expr)).eval f = a.number.cast type := by
    rw [CExpr.eval_paren, CExpr.eval_cast_ok ha.value]
    rfl
  refine ⟨rfl, .of_ok (heval.trans ?_) (iff_of_true rfl trivial)⟩
  have hword := fun low high => word_ofBits low high a.isUnsigned a.bits
  cases p with
  | f32 | f64 =>
    cases htype
    cases hint
  | i8 =>
    cases htype
    cases hn
    have hbyte : a.bits.toUInt32.toUInt8.toInt8 = a.bits.toInt8 := by
      apply Int8.toBitVec_inj.1
      simp [BitVec.signExtend_eq_setWidth_of_le]
    rw [CNumber.cast, CInteger.number, hword, ← hbyte]
    rfl
  | i16 =>
    cases htype
    cases hn
    have hbyte : a.bits.toUInt32.toUInt16.toInt16 = a.bits.toInt16 := by
      apply Int16.toBitVec_inj.1
      simp [BitVec.signExtend_eq_setWidth_of_le]
    rw [CNumber.cast, CInteger.number, hword, ← hbyte]
    rfl
  | i32 | i64 =>
    cases htype
    cases hn
    exact cast_ofBits_i4 _ _
  | bool | char | u8 | u16 | u32 | u64 =>
    cases htype
    cases hn
    rw [CNumber.cast, CInteger.number, hword]
    rfl

theorem evalAll_operands (hargs : ∀ a ∈ args, a.Holds f) :
    CExpr.evalAll f (args.map (·.operand.expr)) = .ok (args.map (·.number)) := by
  induction args with
  | nil => rfl
  | cons a args ih =>
    rw [List.forall_mem_cons] at hargs
    exact CExpr.evalAll_cons_ok hargs.1.value (ih hargs.2)

theorem builtin_standard (hs : s.builtins = .withExtra extra)
    {b : Builtin} (hb : s.builtins.get? id = some b) (hsymbol : b.native = some symbol) :
    b ∈ Builtin.standard := by
  obtain ⟨more, happends, -⟩ := BuiltinTable.withExtra_appends extra
  have hmem := Array.mem_toList_iff.2 (Array.mem_of_getElem? hb)
  rw [hs, happends.entries, List.mem_append] at hmem
  refine hmem.resolve_right fun hmore => ?_
  obtain ⟨signature, -, rfl⟩ := List.mem_map.1 hmore
  cases hsymbol

theorem library_comesTo (hs : s.builtins = .withExtra extra) {isVirtual : Bool}
    {m : MethodRef} {pops : Nat} {ret : Storage} {native : CType}
    (hsite : s.method.sites[index]? = some (.call (.builtin id) pops (some ret)))
    (hknown : s.builtins.symbol? id = some symbol) (htype : CType.ofTag? symbol.ret = some native)
    (hint : native.stackClass = .i4) (hargs : ∀ a ∈ args, a.Holds f)
    (hn : (Op.call isVirtual m).result? s index (args.map fun a => .i4 a.bits) = some (.i4 n)) :
    native ≠ .u4 ∧ ComesTo ((CExpr.call (.library symbol.symbol) (args.map (·.operand.expr))).eval f)
      ((Op.call isVirtual m).isUnsigned s index args) n ((Op.call isVirtual m).Suits s index args) := by
  obtain ⟨b, hget, hsymbol⟩ := Option.bind_eq_some_iff.1 hknown
  have hb : s.builtin? index = some b := by
    rw [CScope.builtin?, hsite]
    exact hget
  have hfloat : (symbol.ret == .f32) = false := by
    rw [beq_eq_false_iff_ne]
    intro hret
    rw [hret] at htype
    cases htype
    cases hint
  have hstandard := IntegerFunction.standard_functions b (builtin_standard hs hget hsymbol)
  rw [hsymbol, Option.all_some, hfloat, Bool.false_or, Bool.and_eq_true, List.any_eq_true, htype] at hstandard
  obtain ⟨⟨fn, -, hfn⟩, hu4⟩ := hstandard
  simp only [IntegerFunction.isBuiltin, Bool.and_eq_true, beq_iff_eq] at hfn
  obtain ⟨⟨hname, hmachine⟩, harity⟩ := hfn
  have hfunction : s.function? index = some fn := by
    rw [CScope.function?, hb]
    simp only [Option.bind_eq_bind, Option.bind_some, hsymbol, ← hname]
    cases fn with
    | abs | sign | clamp => decide
    | extremum greater => cases greater <;> decide
  simp only [Op.result?, hb, Option.bind_eq_bind, Option.bind_some, hsymbol, Option.any_some, hfloat,
    harity, List.length_map] at hn
  split at hn
  · rename_i hlength
    have hcomes := IntegerFunction.comesTo hmachine hlength.symm hn
    rw [CExpr.eval_call_ok (evalAll_operands hargs), ← hname, Op.isUnsigned, hfunction]
    refine ⟨by simpa using hu4, hcomes.type, hcomes.value.trans ?_⟩
    simp [Op.Suits, hfunction]
  · cases hn

theorem operands_pair {o₁ o₂ : COperand} (h : args.map (·.operand) = [o₁, o₂]) :
    ∃ a b, args = [a, b] ∧ a.operand = o₁ ∧ b.operand = o₂ := by
  obtain ⟨a, args, rfl, ha, h⟩ := List.map_eq_cons_iff.1 h
  obtain ⟨b, rfl, hb⟩ := List.map_eq_singleton_iff.1 h
  exact ⟨a, b, rfl, ha, hb⟩

/-- **One operation.** Its expression has the type that the conversions of C give it, and comes to
what the machine computes just if it fits. -/
theorem computes_comesTo (hs : s.builtins = .withExtra extra) {op : Op}
    (h : CEmitter.Computes s index op (args.map (·.operand)) o) (hint : o.type = .i4)
    (hargs : ∀ a ∈ args, a.Holds f)
    (hn : op.result? s index (args.map fun a => .i4 a.bits) = some (.i4 n)) :
    (o.native = .u4 ↔ op.isRecorded = true) ∧
      ComesTo (o.expr.eval f) (op.isUnsigned s index args) n (op.Suits s index args) := by
  have hplain (hnative : o.native = .i4) : o.native = .u4 ↔ false = true := by simp [hnative]
  generalize hparts : args.map (·.operand) = parts at h
  cases h with
  | binary value =>
    obtain ⟨a, b, rfl, rfl, rfl⟩ := operands_pair hparts
    have hvalue := except_toOption.1 hn
    rw [Value.binary, BinaryOp.ofByte?_byte] at hvalue
    obtain ⟨z, hz, hzn⟩ := except_map_ok.1 hvalue
    cases hzn
    obtain ⟨hnative, hcomes⟩ := binary_comesTo s index (hargs a (by simp)) (hargs b (by simp)) value hz
    exact ⟨hplain hnative, hcomes⟩
  | compare value =>
    obtain ⟨a, b, rfl, rfl, rfl⟩ := operands_pair hparts
    obtain ⟨p, hp, hpn⟩ := Option.map_eq_some_iff.1 hn
    cases (Relation.valueTest_i4 _ _ _ _).symm.trans (except_toOption.1 hp)
    cases hpn
    obtain ⟨hnative, hcomes⟩ := compare_comesTo s index (hargs a (by simp)) (hargs b (by simp)) value
    exact ⟨hplain hnative, hcomes⟩
  | neg value =>
    obtain ⟨a, rfl, rfl⟩ := List.map_eq_singleton_iff.1 hparts
    have ha := hargs a (by simp)
    simp [COperand.neg, ha.isInteger] at value
    subst value
    cases hn
    exact ⟨hplain rfl, .of_ok (CExpr.eval_neg ha.signed) (iff_of_true rfl trivial)⟩
  | not value =>
    obtain ⟨a, rfl, rfl⟩ := List.map_eq_singleton_iff.1 hparts
    have ha := hargs a (by simp)
    simp [COperand.complement, ha.isInteger] at value
    subst value
    cases hn
    refine ⟨hplain rfl, .of_ok (k := ~~~a.bits) ?_ (iff_of_true rfl trivial)⟩
    refine (CExpr.eval_unary_ok ha.signed).trans ?_
    show CNumber.complement (.ofBits a.misread a.bits) = .ok (.ofBits a.misread _)
    cases a.misread with
    | false => rfl
    | true =>
      rfl
  | conv scalar value =>
    obtain ⟨a, rfl, rfl⟩ := List.map_eq_singleton_iff.1 hparts
    obtain ⟨hnative, hcomes⟩ := convert_comesTo (hargs a (by simp)) scalar value hint (except_toOption.1 hn)
    refine ⟨by simp [Op.isRecorded, scalar, hnative], ?_⟩
    rw [Op.isUnsigned, scalar]
    exact hcomes
  | convUnsigned value => cases hn
  | library site known scalar arity handles =>
    obtain ⟨hnative, hcomes⟩ := library_comesTo hs site known scalar hint hargs hn
    refine ⟨iff_of_false hnative Bool.false_ne_true, ?_⟩
    rw [← hparts, List.map_map]
    exact hcomes

/-! ## All of them -/

theorem Built.holds (hs : s.builtins = .withExtra extra) (h : Built s f a) :
    a.Holds f := by
  induction h with
  | read integer holds => exact ⟨integer, holds, fun hnative => beq_iff_eq.2 hnative⟩
  | int n => exact ⟨rfl, rfl, fun hnative => by cases hnative⟩
  | @apply index op args o n built computes integer value fits ih =>
    obtain ⟨hrecorded, hcomes⟩ := computes_comesTo hs computes integer ih value
    refine ⟨integer, hcomes.value.2 fits, fun hnative => ?_⟩
    have hrecord := hrecorded.1 hnative
    cases op with
    | conv p => exact hrecord
    | _ => cases hrecord

/-- **Nested integer operands.** An operand that is built by operations that fit, in any nesting, comes to
its integer. Of an operation on such operands the unsigned type is recorded just where `isRecorded` says
so, its expression has the type that the usual arithmetic conversions give it, and it comes to the integer
of the machine if and only if the operation fits. -/
theorem Built.operand_exact {extra : List String} (hs : s.builtins = .withExtra extra) :
    (∀ a, Built s f a → a.operand.expr.eval f = .ok a.number) ∧
      ∀ {index : Nat} {op : Op} {args : List CInteger} {o : COperand} {n : Int32},
        (∀ a ∈ args, Built s f a) → CEmitter.Computes s index op (args.map (·.operand)) o → o.type = .i4 →
          op.result? s index (args.map fun a => .i4 a.bits) = some (.i4 n) →
            (o.native = .u4 ↔ op.isRecorded = true) ∧
              (∀ x, o.expr.eval f = .ok x → ∃ k, x = .ofBits (op.isUnsigned s index args) k) ∧
                (o.expr.eval f = .ok (.ofBits (op.isUnsigned s index args) n) ↔ op.Suits s index args) := by
  refine ⟨fun a ha => (ha.holds hs).value, fun hargs hcomputes hint hvalue => ?_⟩
  obtain ⟨hrecorded, hcomes⟩ := computes_comesTo hs hcomputes hint (fun a ha => (hargs a ha).holds hs) hvalue
  exact ⟨hrecorded, hcomes.type, hcomes.value⟩

/-- A scope in which the first instruction calls `Math.Max`. -/
def maxScope : CScope :=
  { methods := #[], builtins := .withExtra [], layout := none
    method := { (default : CompiledMethod) with
      sites := #[.call (.builtin 31) 2 (some (.scalar .i32 false))] } }

/-- A frame with one variable, which is unsigned. -/
def oneVariable (w : UInt32) : CFrame :=
  { args := default, statics := default, vars := [(.localVar 0, .uint w)] }

/-- That variable. -/
def unsignedVariable : COperand := .ofPlace (.localVar 0) .u4 (.localVar 0)

/-- The lowest bits of the variable: unsigned without a record. -/
def lowestBits : COperand :=
  .compound (.paren (.binary .and unsignedVariable.expr (.int 255))) .i4 [unsignedVariable, .int 255]

/-- The greater of them and three. -/
def atLeastThree : COperand :=
  .compound (.call (.library "DIVER_MAX") [lowestBits.expr, .int 3]) .i4 [lowestBits, .int 3]

theorem atLeastThree_exact : ∃ o, COperand.binary .shr atLeastThree (.int 2) = .ok o ∧
    o.expr.eval (oneVariable 0x80000010) = .ok (.uint 4) := by
  have hvariable : Built maxScope (oneVariable 0x80000010) ⟨unsignedVariable, true, 0x80000010⟩ :=
    .read rfl rfl
  have hlowest : Built maxScope (oneVariable 0x80000010) ⟨lowestBits, true, 16⟩ :=
    @Built.apply _ _ 0 (.binary .and) [⟨unsignedVariable, true, 0x80000010⟩, ⟨.int 255, false, 255⟩] _ _
      (by simp [hvariable, Built.int]) (.binary rfl) rfl (by decide) trivial
  have hmax : maxScope.builtins.symbol? 31 = some ⟨"DIVER_MAX", .i32⟩ := by decide
  have hgreater : Built maxScope (oneVariable 0x80000010) ⟨atLeastThree, true, 16⟩ :=
    @Built.apply _ _ 0 (.call false default) [⟨lowestBits, true, 16⟩, ⟨.int 3, false, 3⟩] _ _
      (by simp [hlowest, Built.int]) (.library rfl hmax rfl rfl rfl) rfl (by decide +kernel)
      (fun fn hfn => by cases hfn; exact fun _ => by decide)
  have hargs : ∀ a ∈ [⟨atLeastThree, true, 16⟩, ⟨.int 2, false, 2⟩],
      Built maxScope (oneVariable 0x80000010) a := by
    simp [hgreater, Built.int]
  have hvalue : (Op.binary .shr).result? maxScope 0 [.i4 16, .i4 2] = some (.i4 4) := by decide
  have hexact := (Built.operand_exact (show maxScope.builtins = .withExtra [] from rfl)).2 hargs
    (.binary rfl) rfl hvalue
  exact ⟨_, rfl, hexact.2.2.2 fun _ => by decide⟩

/-- A mask and a shift to the right: the machine keeps the sign of the variable, C does not know
that there is one. -/
theorem shift_of_mask_differs : ∃ a o,
    COperand.binary .and unsignedVariable unsignedVariable = .ok a ∧ a.native = .i4 ∧
      a.expr.eval (oneVariable 0x80000000) = .ok (.uint 0x80000000) ∧
        COperand.binary .shr a (.int 1) = .ok o ∧
          o.expr.eval (oneVariable 0x80000000) = .ok (.uint 0x40000000) ∧
            Value.binary BinaryOp.shr.byte (.i4 0x80000000) (.i4 1) = .ok (.i4 0xC0000000) :=
  ⟨_, _, rfl, rfl, rfl, rfl, rfl, rfl⟩

end DeviceCode
