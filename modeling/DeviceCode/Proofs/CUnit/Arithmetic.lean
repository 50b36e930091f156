import DeviceCode.CUnit.Evaluation
import DeviceCode.CUnit.Operand

/-!
# Integer operands mean what the machine computes

The expressions that stand for operations on integers of 32 bits: where the machine has a result, so
does C. The machine takes its integers for signed ones; an expression of C has the signed or the
unsigned type, which an operand may have recorded or not (`Holds`). `Holds.eval_intBinary` and
`Holds.eval_compareExpr` say what C makes of them, `eval_intBinary` and `eval_compareExpr` that
signed operands come to what the machine computes.

Signed arithmetic wraps on both sides; a shift takes its amount modulo 32, in C through a mask.
-/

namespace DeviceCode

open CExpr

open CNumber

variable {op : BinaryOp} {xs : List CNumber} {x z : Int32}

/-! ## Words -/

theorem mask_mod (n : Nat) : (n &&& 31) % 32 = n % 32 := by
  rw [Nat.and_two_pow_sub_one_eq_mod n 5]
  omega

theorem toInt_cases (x : Int32) :
    (0 ≤ x.toInt ∧ x.toInt < 2147483648 ∧ (x.toUInt32.toNat : Int) = x.toInt) ∨
      (-2147483648 ≤ x.toInt ∧ x.toInt < 0 ∧ (x.toUInt32.toNat : Int) = x.toInt + 4294967296) := by
  have hint : x.toInt = x.toBitVec.toInt := rfl
  have hnat : x.toUInt32.toNat = x.toBitVec.toNat := rfl
  rw [hint, BitVec.toInt_eq_toNat_cond]
  split <;> omega

theorem toNat_smod_32 (y : Int32) : (y.toBitVec.smod 32).toNat = y.toBitVec.toNat % 32 := by
  have hy := y.toBitVec.isLt
  have hint : (y.toBitVec.smod 32).toInt = (y.toBitVec.toNat % 32 : Nat) := by
    have h32 : (32 : BitVec 32).toInt = 32 := by decide
    rw [BitVec.toInt_smod, h32, Int.fmod_eq_emod_of_nonneg _ (by decide),
      BitVec.toInt_eq_toNat_cond]
    split <;> omega
  have hnat := BitVec.toInt_eq_toNat_cond (y.toBitVec.smod 32)
  split at hnat <;> omega

theorem shiftLeft_mask (x y : Int32) :
    (x.toUInt32 <<< (y &&& 31).toUInt32).toInt32 = x <<< y := by
  apply Int32.toBitVec_inj.1
  have hsmod := toNat_smod_32 y
  simp at hsmod ⊢
  rw [hsmod, mask_mod]

theorem shiftRight_mask (x y : Int32) : x >>> (y &&& 31) = x >>> y := by
  apply Int32.toBitVec_inj.1
  have hsmod := toNat_smod_32 y
  have hmask := toNat_smod_32 (y &&& 31)
  simp at hsmod hmask ⊢
  rw [hsmod, hmask, mask_mod]

theorem shiftRight_mask_unsigned (x y : Int32) :
    x.toUInt32 >>> (y &&& 31).toUInt32 = x.toUInt32 >>> y.toUInt32 := by
  apply UInt32.toBitVec_inj.1
  have hmask := mask_mod y.toBitVec.toNat
  simp at hmask ⊢
  rw [hmask]

theorem mask_lt (y : Int32) : (y &&& 31).toUInt32 < 32 := by
  exact Nat.and_lt_two_pow _ (by decide : (Int32.toUInt32 31).toNat < 2 ^ 5)

theorem div_neg_one (x : Int32) : x / (-1) = -x := by
  apply Int32.toBitVec_inj.1
  apply BitVec.toInt_inj.1
  have hone : (-1 : Int32).toBitVec.toInt = -1 := by decide
  rw [Int32.toBitVec_div, BitVec.toInt_sdiv, hone, Int.tdiv_neg, Int.tdiv_one,
    Int32.toBitVec_neg, BitVec.toInt_neg]

theorem rem_neg_one (x : Int32) : x % (-1) = 0 := by
  apply Int32.toBitVec_inj.1
  apply BitVec.toInt_inj.1
  have hone : (-1 : Int32).toBitVec.toInt = -1 := by decide
  rw [Int32.toBitVec_mod, BitVec.toInt_srem, hone, Int.tmod_neg, Int.tmod_one]
  rfl

/-! ## Expressions -/

namespace CNumber

@[simp] theorem cast_int_i4 (x : Int32) : (int x).cast .i4 = .ok (int x) := by
  show Except.ok (int x.toUInt32.toInt32) = _
  rw [Int32.toInt32_toUInt32]

@[simp] theorem cast_uint_i4 (w : UInt32) : (uint w).cast .i4 = .ok (int w.toInt32) := rfl

/-- The integer with these bits, of the unsigned or of the signed type. -/
def ofBits (isUnsigned : Bool) (x : Int32) : CNumber :=
  if isUnsigned then uint x.toUInt32 else int x

@[simp] theorem ofBits_true (x : Int32) : ofBits true x = uint x.toUInt32 := rfl

@[simp] theorem ofBits_false (x : Int32) : ofBits false x = int x := rfl

theorem cast_ofBits_i4 (u : Bool) (x : Int32) : (ofBits u x).cast .i4 = .ok (int x) := by
  cases u <;> simp

theorem cast_ofBits_u4 (u : Bool) (x : Int32) : (ofBits u x).cast .u4 = .ok (uint x.toUInt32) := by
  cases u <;> rfl

theorem word_ofBits (low high : Int) (u : Bool) (x : Int32) :
    (ofBits u x).word low high = .ok x.toUInt32 := by
  cases u <;> rfl

theorem pair_ofBits (u w : Bool) (x y : Int32) : pair (ofBits u x) (ofBits w y) =
    if u || w then .uints x.toUInt32 y.toUInt32 else .ints x y := by
  cases u <;> cases w <;> rfl

theorem binary_ofBits {op : CBinary} (hshl : op ≠ .shl) (hshr : op ≠ .shr) (u w : Bool)
    (x y : Int32) : binary op (ofBits u x) (ofBits w y) =
      if u || w then uintArith op x.toUInt32 y.toUInt32 else intArith op x y := by
  rw [binary.eq_3 _ _ _ hshl hshr, pair_ofBits]
  cases u || w <;> rfl

theorem shiftAmount_mask (u : Bool) (y : Int32) :
    (ofBits u (y &&& 31)).shiftAmount = .ok (y &&& 31).toUInt32 := by
  cases u with
  | false => rw [ofBits_false, shiftAmount, if_pos (mask_lt y)]
  | true => rw [ofBits_true, shiftAmount, if_pos (mask_lt y)]

end CNumber

namespace CExpr

section
variable {f : CFrame} {a b : CExpr} {x y : CNumber}

theorem eval_cast_ok {type : CType} (hx : a.eval f = .ok x) :
    (cast type a).eval f = x.cast type := by
  show (a.eval f >>= fun x => x.cast type) = _
  rw [hx]
  rfl

theorem eval_unary_ok {op : CUnary} (hx : a.eval f = .ok x) :
    (unary op a).eval f = x.unary op := by
  show (a.eval f >>= fun x => x.unary op) = _
  rw [hx]
  rfl

theorem eval_binary_ok {op : CBinary} (hx : a.eval f = .ok x) (hy : b.eval f = .ok y) :
    (binary op a b).eval f = CNumber.binary op x y := by
  show (a.eval f >>= fun x => b.eval f >>= fun y => CNumber.binary op x y) = _
  rw [hx, hy]
  rfl

variable {callee : CCallee} {f : CFrame}

theorem eval_call_ok {args : List CExpr} (h : evalAll f args = .ok xs) :
    (call callee args).eval f = CNumber.call callee xs := by
  show (evalAll f args >>= fun xs => CNumber.call callee xs) = _
  rw [h]
  rfl

theorem evalAll_cons_ok {es : List CExpr} (hx : a.eval f = .ok x) (hxs : evalAll f es = .ok xs) :
    evalAll f (a :: es) = .ok (x :: xs) := by
  show (a.eval f >>= fun x => evalAll f es >>= fun xs => pure (x :: xs)) = _
  rw [hx, hxs]
  rfl

theorem eval_paren (a : CExpr) : (paren a).eval f = a.eval f := rfl

end

theorem eval_call₂ {a b : CExpr} {u w : Bool} {y : Int32}
    (hx : a.eval f = .ok (.ofBits u x)) (hy : b.eval f = .ok (.ofBits w y))
    (hfloat : callee ≠ .floatRemainder) (hlibrary : ∀ symbol, callee ≠ .library symbol) :
    (call callee [a, b]).eval f = (CNumber.wrapping callee [x, y]).map .int := by
  have hcall : (call callee [a, b]).eval f = CNumber.call callee [.ofBits u x, .ofBits w y] :=
    eval_call_ok (evalAll_cons_ok hx (evalAll_cons_ok hy rfl))
  have hwords : [CNumber.ofBits u x, CNumber.ofBits w y].mapM
      (CNumber.word (-2147483648) 2147483647) = .ok [x.toUInt32, y.toUInt32] := by
    simp only [List.mapM_cons, List.mapM_nil, CNumber.word_ofBits]
    rfl
  rw [hcall]
  cases callee with
  | floatRemainder => exact absurd rfl hfloat
  | library symbol => exact absurd rfl (hlibrary symbol)
  | _ =>
    simp only [CNumber.call, hwords]
    rfl

theorem eval_neg {a : CExpr} {u : Bool} (hx : a.eval f = .ok (.ofBits u x)) :
    (call .neg [a]).eval f = .ok (.int (-x)) := by
  have hwords : [ofBits u x].mapM (word (-2147483648) 2147483647) =
      .ok [x.toUInt32] := by
    simp only [List.mapM_cons, List.mapM_nil, word_ofBits]
    rfl
  rw [eval_call_ok (evalAll_cons_ok hx rfl)]
  simp only [CNumber.call, hwords]
  show Except.ok (CNumber.int (-x.toUInt32.toInt32)) = _
  rw [Int32.toInt32_toUInt32]

end CExpr

namespace Comparison

/-- The comparison on two integers, which it may take for unsigned ones. -/
def holds (isUnsigned : Bool) (x y : Int32) : Comparison → Bool
  | eq => x == y
  | ne => x != y
  | ge => if isUnsigned then y.toUInt32 ≤ x.toUInt32 else y ≤ x
  | gt => if isUnsigned then y.toUInt32 < x.toUInt32 else y < x
  | le => if isUnsigned then x.toUInt32 ≤ y.toUInt32 else x ≤ y
  | lt => if isUnsigned then x.toUInt32 < y.toUInt32 else x < y

theorem branchTest_i4 (cmp : Comparison) (isUnsigned : Bool) (x y : Int32) :
    Value.branchTest (cmp.branchTest isUnsigned) (.i4 x) (.i4 y) =
      .ok (cmp.holds isUnsigned x y) := by
  have heq : (x.toInt == y.toInt) = (x == y) := by
    rw [Bool.eq_iff_iff, beq_iff_eq, beq_iff_eq, Int32.toInt_inj]
  cases cmp with
  | eq => exact congrArg Except.ok heq
  | ne => exact congrArg (fun b => Except.ok !b) heq
  | ge | gt | le | lt =>
    cases isUnsigned <;>
      simp [holds, branchTest, Value.branchTest, Value.test, Value.Order.holds,
        Int32.le_iff_toInt_le, Int32.lt_iff_toInt_lt, UInt32.le_iff_toNat_le,
        UInt32.lt_iff_toNat_lt]

end Comparison

theorem Relation.valueTest_eq (relation : Relation) (isUnsigned : Bool) (a b : Value) :
    Value.valueTest (relation.valueTest isUnsigned) a b =
      Value.branchTest (relation.comparison.branchTest isUnsigned) a b := by
  cases relation <;> cases isUnsigned <;> rfl

theorem Relation.valueTest_i4 (relation : Relation) (isUnsigned : Bool) (x y : Int32) :
    Value.valueTest (relation.valueTest isUnsigned) (.i4 x) (.i4 y) =
      .ok (relation.comparison.holds isUnsigned x y) := by
  rw [valueTest_eq, Comparison.branchTest_i4]

/-- The type of an operation on integers in C: a bitwise operation has the common type of its
operands, a shift to the right the type of its left operand, which may be misread. -/
def BinaryOp.isUnsigned (op : BinaryOp) (u w misread : Bool) : Bool :=
  match op with
  | .and | .or | .xor => u || w
  | .shr => misread
  | _ => false

namespace COperand

/-- The operand comes to the integer with the bits of `x`, of the unsigned type if `u`. It has not
recorded the unsigned type without having it, but it may have it without a record. -/
structure Holds (f : CFrame) (o : COperand) (u : Bool) (x : Int32) : Prop where
  isInteger : o.type = .i4
  value : o.expr.eval f = .ok (.ofBits u x)
  recorded : o.native = .u4 → u = true

/-- The expression is unsigned and the operand does not know, so that it stands where a signed
integer is meant. -/
def misread (o : COperand) (u : Bool) : Bool := u && o.native != .u4

/-- An operation on integers in C, where the machine has the result `z`: the shift of a misread
operand to the right fills up with zeros. -/
def intResult (op : BinaryOp) (u w misread : Bool) (x y z : Int32) : CNumber :=
  .ofBits (op.isUnsigned u w misread)
    (if op = .shr ∧ misread = true then (x.toUInt32 >>> y.toUInt32).toInt32 else z)

namespace Holds

variable {f : CFrame} {a b : COperand} {u w : Bool} {y : Int32}

theorem signed (h : Holds f a u x) : a.signed.eval f = .ok (.ofBits (a.misread u) x) := by
  by_cases hnative : a.native = .u4
  · rw [COperand.signed, if_pos hnative, eval_cast_ok h.value, cast_ofBits_i4]
    simp [misread, hnative]
  · rw [COperand.signed, if_neg hnative, h.value, misread, bne_iff_ne.2 hnative, Bool.and_true]

theorem unsigned (h : Holds f a u x) : a.unsigned.eval f = .ok (.uint x.toUInt32) := by
  by_cases hnative : a.native = .u4
  · rw [COperand.unsigned, if_pos hnative, h.value, h.recorded hnative]
    rfl
  · rw [COperand.unsigned, if_neg hnative, eval_cast_ok h.value, cast_ofBits_u4]

theorem shiftAmount (h : Holds f a u x) :
    a.shiftAmount.eval f = .ok (.ofBits u (x &&& 31)) := by
  rw [COperand.shiftAmount, CExpr.eval_paren,
    CExpr.eval_binary_ok h.value (show (CExpr.int 31).eval f = .ok (.ofBits false 31) from rfl)]
  rw [binary_ofBits (by decide) (by decide)]
  cases u <;> simp [intArith, uintArith]

theorem eval_bitwise {op : CBinary} (ha : Holds f a u x) (hb : Holds f b w y)
    (hints : CNumber.intArith op x y = .ok (.int z))
    (huints : CNumber.uintArith op x.toUInt32 y.toUInt32 = .ok (.uint z.toUInt32))
    (hshl : op ≠ .shl) (hshr : op ≠ .shr) :
    (CExpr.paren (.binary op a.expr b.expr)).eval f = .ok (.ofBits (u || w) z) := by
  rw [eval_paren, eval_binary_ok ha.value hb.value, binary_ofBits hshl hshr]
  cases u || w with
  | false => exact hints
  | true => exact huints

/-- **Arithmetic.** Where the machine has a result, C has one with the same bits, unless the shift
of a misread operand fills up with zeros. -/
theorem eval_intBinary (ha : Holds f a u x) (hb : Holds f b w y)
    (h : Value.integerOp x y op = .ok z) :
    (intBinary op a b).eval f = .ok (intResult op u w (a.misread u) x y z) := by
  have hzero : y ≠ 0 → y.toUInt32 ≠ 0 := by
    intro hy hword
    apply hy
    rw [← Int32.toInt32_toUInt32 y, hword]
    rfl
  cases op with
  | add | sub | mul =>
    cases h
    rw [intBinary, eval_call₂ ha.signed hb.signed (by simp) (by simp)]
    rfl
  | div =>
    rw [Value.integerOp] at h
    split at h
    · cases h
    · rename_i hy
      cases h
      rw [intBinary, eval_call₂ ha.signed hb.signed (by simp) (by simp), wrapping]
      by_cases hone : y = -1
      · rw [hone, div_neg_one]
        rfl
      · rw [if_neg hone, if_neg hy]
        rfl
  | rem =>
    rw [Value.integerOp] at h
    split at h
    · cases h
    · rename_i hy
      cases h
      rw [intBinary, eval_call₂ ha.signed hb.signed (by simp) (by simp), wrapping]
      by_cases hone : y = -1
      · rw [hone, rem_neg_one]
        rfl
      · rw [if_neg hone, if_neg hy]
        rfl
  | divUn =>
    rw [Value.integerOp] at h
    split at h
    · cases h
    · rename_i hy
      cases h
      have hdiv : (CExpr.binary .div a.unsigned b.unsigned).eval f =
          .ok (.uint (x.toUInt32 / y.toUInt32)) := by
        rw [CExpr.eval_binary_ok ha.unsigned hb.unsigned]
        exact if_neg (hzero hy)
      rw [intBinary, CExpr.eval_paren, CExpr.eval_cast_ok hdiv]
      rfl
  | remUn =>
    rw [Value.integerOp] at h
    split at h
    · cases h
    · rename_i hy
      cases h
      have hrem : (CExpr.binary .rem a.unsigned b.unsigned).eval f =
          .ok (.uint (x.toUInt32 % y.toUInt32)) := by
        rw [CExpr.eval_binary_ok ha.unsigned hb.unsigned]
        exact if_neg (hzero hy)
      rw [intBinary, CExpr.eval_paren, CExpr.eval_cast_ok hrem]
      rfl
  | and | or | xor =>
    cases h
    exact ha.eval_bitwise hb rfl (by simp [uintArith]) (by decide) (by decide)
  | shl =>
    cases h
    have hshift : (CExpr.binary .shl a.unsigned b.shiftAmount).eval f =
        .ok (.uint (x.toUInt32 <<< (y &&& 31).toUInt32)) := by
      rw [CExpr.eval_binary_ok ha.unsigned hb.shiftAmount, CNumber.binary, CNumber.shift,
        shiftAmount_mask]
      rfl
    rw [intBinary, eval_paren, eval_cast_ok hshift, cast_uint_i4,
      shiftLeft_mask]
    rfl
  | shr =>
    cases h
    rw [intBinary, eval_paren, eval_binary_ok ha.signed hb.shiftAmount, CNumber.binary,
      shift, shiftAmount_mask]
    cases a.misread u with
    | false =>
      show Except.ok (CNumber.int (x >>> (y &&& 31).toUInt32.toInt32)) = _
      rw [Int32.toInt32_toUInt32, shiftRight_mask]
      rfl
    | true =>
      show Except.ok (uint (x.toUInt32 >>> (y &&& 31).toUInt32)) = _
      rw [shiftRight_mask_unsigned]
      rfl
  | shrUn =>
    cases h
    have hshift : (CExpr.binary .shr a.unsigned b.shiftAmount).eval f =
        .ok (.uint (x.toUInt32 >>> y.toUInt32)) := by
      rw [CExpr.eval_binary_ok ha.unsigned hb.shiftAmount, CNumber.binary, CNumber.shift,
        shiftAmount_mask, ← shiftRight_mask_unsigned]
      rfl
    rw [intBinary, eval_paren, eval_cast_ok hshift]
    rfl

theorem binary_cOperator (cmp : Comparison) (u w : Bool) (x y : Int32) :
    CNumber.binary cmp.cOperator (.ofBits u x) (.ofBits w y) =
      .ok (CNumber.ofBool (cmp.holds (u || w) x y)) := by
  have heq : (x.toUInt32 == y.toUInt32) = (x == y) := by
    rw [Bool.eq_iff_iff, beq_iff_eq, beq_iff_eq]
    exact ⟨fun h => by simpa using congrArg UInt32.toInt32 h, congrArg Int32.toUInt32⟩
  rw [binary_ofBits (by cases cmp <;> decide) (by cases cmp <;> decide)]
  cases u || w with
  | false => cases cmp <;> rfl
  | true => cases cmp <;> simp [uintArith, Comparison.cOperator, Comparison.holds, heq, bne]

/-- **Comparisons.** The expression comes to one where the comparison holds, and to zero elsewhere.
A signed comparison with a misread operand is an unsigned one. -/
theorem eval_compareExpr (cmp : Comparison) (isUnsigned : Bool) (ha : Holds f a u x)
    (hb : Holds f b w y) : (compareExpr cmp isUnsigned a b).eval f = .ok (CNumber.ofBool
      (cmp.holds (isUnsigned || a.misread u || b.misread w) x y)) := by
  unfold compareExpr
  simp only [ha.isInteger, hb.isInteger]
  cases hcmp : cmp.isOrdering with
  | false =>
    rw [if_pos (by rfl), eval_paren, eval_binary_ok ha.value hb.value,
      binary_cOperator]
    cases cmp with
    | eq | ne => rfl
    | ge | gt | le | lt => cases hcmp
  | true =>
    rw [if_neg (by decide)]
    cases isUnsigned with
    | false =>
      simp only [reduceCtorEq, decide_false, Bool.or_self, Bool.and_false, Bool.false_eq_true,
        if_false]
      rw [eval_paren, eval_binary_ok ha.signed hb.signed, binary_cOperator]
      rfl
    | true =>
      simp only [reduceCtorEq, decide_false, Bool.or_self, Bool.false_and, Bool.false_eq_true,
        if_false, if_true]
      rw [eval_paren, eval_binary_ok ha.unsigned hb.unsigned]
      exact binary_cOperator cmp true true x y

end Holds

/-- The operand is a signed integer that comes to `x`. -/
structure Yields (f : CFrame) (o : COperand) (x : Int32) : Prop where
  native : o.native = .i4
  value : o.expr.eval f = .ok (.int x)

section
variable {f : CFrame} {a b : COperand} {y : Int32}

theorem Yields.type_eq (h : Yields f a x) : a.type = .i4 := by
  rw [type, h.native]
  rfl

theorem Yields.holds (h : Yields f a x) : Holds f a false x where
  isInteger := h.type_eq
  value := h.value
  recorded hnative := by
    rw [h.native] at hnative
    cases hnative

/-- **Arithmetic of signed integers.** Where the machine has a result, the expression comes to it. -/
theorem eval_intBinary (ha : Yields f a x) (hb : Yields f b y) (h : Value.integerOp x y op = .ok z) :
    (intBinary op a b).eval f = .ok (.int z) := by
  rw [ha.holds.eval_intBinary hb.holds h]
  cases op <;> rfl

/-- **Comparisons of signed integers.** -/
theorem eval_compareExpr (cmp : Comparison) (isUnsigned : Bool) (ha : Yields f a x)
    (hb : Yields f b y) : (compareExpr cmp isUnsigned a b).eval f =
      .ok (CNumber.ofBool (cmp.holds isUnsigned x y)) := by
  rw [ha.holds.eval_compareExpr cmp isUnsigned hb.holds]
  simp [misread]

/-! ## Operands that are computed -/

theorem binary_yields (ha : Yields f a x) (hb : Yields f b y) (h : Value.integerOp x y op = .ok z) :
    ∃ o, binary op a b = .ok o ∧ o.Yields f z := by
  refine ⟨compound (intBinary op a b) .i4 [a, b], ?_, rfl, eval_intBinary ha hb h⟩
  simp [binary, ha.type_eq, hb.type_eq]

theorem compare_yields (cmp : Comparison) (isUnsigned : Bool) (ha : Yields f a x) (hb : Yields f b y) :
    ∃ o, compare cmp isUnsigned a b = .ok o ∧
      o.Yields f (if cmp.holds isUnsigned x y then 1 else 0) := by
  refine ⟨compound (compareExpr cmp isUnsigned a b) .i4 [a, b], ?_, rfl,
    eval_compareExpr cmp isUnsigned ha hb⟩
  simp [compare, ha.type_eq, hb.type_eq]

theorem neg_yields (ha : Yields f a x) : ∃ o, neg a = .ok o ∧ o.Yields f (-x) := by
  refine ⟨compound (.call .neg [a.signed]) .i4 [a], ?_, rfl, eval_neg ha.holds.signed⟩
  simp [neg, ha.type_eq]

theorem complement_yields (ha : Yields f a x) : ∃ o, complement a = .ok o ∧ o.Yields f (~~~x) := by
  refine ⟨_, if_pos ha.type_eq, rfl, ?_⟩
  rw [compound, eval_paren, eval_unary_ok ha.holds.signed]
  rfl

end

end COperand

end DeviceCode
