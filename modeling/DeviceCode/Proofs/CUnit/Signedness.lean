import DeviceCode.Proofs.Binary32
import DeviceCode.Proofs.CUnit.Arithmetic
import Mathlib.Data.List.Basic

/-!
# Integers that C takes for unsigned ones

The machine takes its integers for signed ones. Here are the operands for which it makes a difference
that C takes one of them for unsigned: a shift to the right (`shiftRight_unsigned_iff`), a comparison
(`Comparison.holds_unsigned_iff`) and the functions of `Math` with an integer result
(`IntegerFunction.comesTo`), whose arguments C is given as they are.
-/

namespace DeviceCode

open CNumber

/-! ## Shifts and comparisons -/

/-- An integer as a number, unsigned or signed. -/
def reading (isUnsigned : Bool) (x : Int32) : Int :=
  if isUnsigned then x.toUInt32.toNat else x.toInt

theorem nonneg_iff (x : Int32) : 0 ≤ x ↔ 0 ≤ x.toInt := Int32.le_iff_toInt_le

theorem and_31_eq_zero_iff (y : Int32) : y &&& 31 = 0 ↔ y.toUInt32.toNat % 32 = 0 := by
  have hand : (y &&& 31).toUInt32.toNat = y.toUInt32.toNat % 32 := by
    exact Nat.and_two_pow_sub_one_eq_mod _ 5
  rw [← hand]
  constructor
  · intro h
    rw [h]
    rfl
  · intro h
    have hword : (y &&& 31).toUInt32 = 0 := UInt32.toNat_inj.1 h
    simpa using congrArg UInt32.toInt32 hword

/-- Filling up with zeros differs from filling up with the sign where a negative integer moves. -/
theorem shiftRight_unsigned_iff (x y : Int32) :
    (x.toUInt32 >>> y.toUInt32).toInt32 = x >>> y ↔ 0 ≤ x ∨ y &&& 31 = 0 := by
  have hx := toInt_cases x
  have hsmod : (y.toBitVec.smod 32).toNat = y.toUInt32.toNat % 32 := toNat_smod_32 y
  have hshift : (x >>> y).toInt = x.toInt >>> (y.toUInt32.toNat % 32) := by
    rw [← hsmod]
    exact BitVec.toInt_sshiftRight
  rw [and_31_eq_zero_iff, nonneg_iff, ← Int32.toInt_inj, hshift]
  generalize hk : y.toUInt32.toNat % 32 = k
  have hword : (x.toUInt32 >>> y.toUInt32).toNat = x.toUInt32.toNat / 2 ^ k := by
    rw [UInt32.toNat_shiftRight, hk, Nat.shiftRight_eq_div_pow]
  have hres := toInt_cases (x.toUInt32 >>> y.toUInt32).toInt32
  rw [UInt32.toUInt32_toInt32] at hres
  rw [Int.shiftRight_eq_div_pow]
  have hpow : 0 < 2 ^ k := Nat.pow_pos (by decide)
  constructor
  · intro heq
    by_contra hneg
    rw [not_or] at hneg
    have htwo : 2 ≤ 2 ^ k := Nat.le_self_pow hneg.2 2
    have hhalf : x.toUInt32.toNat / 2 ^ k ≤ x.toUInt32.toNat / 2 := Nat.div_le_div_left htwo (by decide)
    have hsign : x.toInt / (2 ^ k : Nat) < 0 := Int.ediv_neg_of_neg_of_pos (by omega) (by exact_mod_cast hpow)
    omega
  · rintro (hpos | rfl)
    · have hnat : (x.toUInt32.toNat : Int) = x.toInt := by omega
      have hdiv : ((x.toUInt32.toNat / 2 ^ k : Nat) : Int) = x.toInt / (2 ^ k : Nat) := by
        rw [← hnat]
        rfl
      have hle : x.toUInt32.toNat / 2 ^ k ≤ x.toUInt32.toNat := Nat.div_le_self _ _
      omega
    · omega

/-- A comparison of the order depends on the sign just for integers of different signs. -/
theorem Comparison.holds_unsigned_iff {cmp : Comparison} (hcmp : cmp.isOrdering = true)
    (x y : Int32) : cmp.holds true x y = cmp.holds false x y ↔ (0 ≤ x ↔ 0 ≤ y) := by
  have hx := toInt_cases x
  have hy := toInt_cases y
  rw [nonneg_iff, nonneg_iff]
  cases cmp with
  | eq | ne => cases hcmp
  | ge | gt | le | lt =>
    simp only [holds, if_true, Bool.false_eq_true, if_false, decide_eq_decide,
      UInt32.le_iff_toNat_le, UInt32.lt_iff_toNat_lt, Int32.le_iff_toInt_le, Int32.lt_iff_toInt_lt]
    omega

/-! ## Extrema and signs -/

/-- The greater or the lesser of two integers. -/
def pick (greater isUnsigned : Bool) (x y : Int32) : Int32 :=
  if greater then if reading isUnsigned y < reading isUnsigned x then x else y
  else if reading isUnsigned x < reading isUnsigned y then x else y

theorem pick_unsigned_iff (greater : Bool) (x y : Int32) :
    pick greater true x y = pick greater false x y ↔ (0 ≤ x ↔ 0 ≤ y) := by
  have hx := toInt_cases x
  have hy := toInt_cases y
  by_cases hxy : x = y
  · subst hxy
    simp [pick]
  rw [nonneg_iff, nonneg_iff]
  cases greater with
  | false | true =>
    simp only [pick, reading, Bool.false_eq_true, if_false, if_true]
    split <;> split <;> simp [hxy, Ne.symm hxy] <;> omega

/-- The machine prefers the other one of two equal integers. -/
theorem pick_signed (x y : Int32) : pick true false x y = (if x < y then y else x) ∧
    pick false false x y = if y < x then y else x := by
  simp only [pick, reading, if_true, Bool.false_eq_true, if_false, Int32.lt_iff_toInt_lt]
  have heq : ¬ x.toInt < y.toInt → ¬ y.toInt < x.toInt → x = y := by
    intro h₁ h₂
    exact Int32.toInt_inj.1 (by omega)
  constructor <;> split <;> split <;> first | rfl | omega | simp [*]

theorem extremum_ofBits (u w : Bool) (x y : Int32) :
    (ofBits u x).max (ofBits w y) = ofBits (u || w) (pick true (u || w) x y) ∧
      (ofBits u x).min (ofBits w y) = ofBits (u || w) (pick false (u || w) x y) := by
  rw [CNumber.max, CNumber.min, pair_ofBits]
  cases u || w with
  | false => simp [pick, reading, Int32.lt_iff_toInt_lt]
  | true =>
    simp only [pick, reading, if_true, ofBits_true, Bool.false_eq_true, if_false,
      UInt32.lt_iff_toNat_lt, Int.ofNat_lt]
    constructor <;> split <;> rfl

/-- The sign of a number, as an integer. -/
def signOf (n : Int) : Int32 := if 0 < n then 1 else if n < 0 then -1 else 0

theorem sign_ofBits (u : Bool) (x : Int32) : sign (ofBits u x) = int (signOf (reading u x)) := by
  cases u with
  | false => simp [sign, signOf, reading, Int32.lt_iff_toInt_lt]
  | true =>
    rw [signOf, reading, if_pos rfl]
    simp only [Int.natCast_pos]
    rfl

theorem signOf_reading_iff (u : Bool) (x : Int32) :
    signOf (reading u x) = signOf x.toInt ↔ (u = true → 0 ≤ x) := by
  have hx := toInt_cases x
  rw [nonneg_iff]
  cases u with
  | false => simp [reading]
  | true =>
    simp only [reading, if_true, signOf, true_implies]
    constructor
    · intro heq
      by_contra hneg
      rw [if_pos (by omega), if_neg (by omega), if_pos (by omega)] at heq
      revert heq
      decide
    · intro hpos
      rw [show (x.toUInt32.toNat : Int) = x.toInt by omega]

theorem checked_natAbs {x : Int32} (h : x ≠ Int32.minValue) :
    checked x.toInt.natAbs = .ok (int (if x < 0 then -x else x)) := by
  have hx := toInt_cases x
  have hmin : x.toInt ≠ -2147483648 := fun heq => h (Int32.toInt_inj.1 (heq.trans (by decide)))
  have hlt : x < 0 ↔ x.toInt < 0 := Int32.lt_iff_toInt_lt
  rw [checked, if_pos (by omega)]
  by_cases hneg : x.toInt < 0
  · rw [if_pos (hlt.2 hneg), Int.ofNat_natAbs_of_nonpos (by omega), Int32.ofInt_neg, Int32.ofInt_toInt]
  · rw [if_neg (mt hlt.1 hneg), Int.natAbs_of_nonneg (by omega), Int32.ofInt_toInt]

/-! ## Functions -/

/-- An operand that stands for an integer of the machine. Its expression is unsigned or signed in C. -/
structure CInteger where
  operand : COperand
  isUnsigned : Bool
  bits : Int32

namespace CInteger

def number (a : CInteger) : CNumber := .ofBits a.isUnsigned a.bits

/-- C may take it for an unsigned integer where a signed one is meant. -/
def misread (a : CInteger) : Bool := a.operand.misread a.isUnsigned

end CInteger

/-- If C has a result, it is an integer of the type. It is the machine's integer `n` just if `fits`. -/
structure ComesTo (result : Except CFault CNumber) (isUnsigned : Bool) (n : Int32) (fits : Prop) :
    Prop where
  type : ∀ x, result = .ok x → ∃ k, x = .ofBits isUnsigned k
  value : result = .ok (.ofBits isUnsigned n) ↔ fits

theorem ofBits_inj {u : Bool} {x y : Int32} : ofBits u x = ofBits u y ↔ x = y := by
  cases u with
  | false => simp
  | true =>
    refine ⟨fun h => ?_, congrArg _⟩
    simpa using congrArg UInt32.toInt32 (CNumber.uint.inj h)

theorem ComesTo.of_ok {result : Except CFault CNumber} {u : Bool} {k n : Int32} {fits : Prop}
    (h : result = .ok (.ofBits u k)) (hk : k = n ↔ fits) : ComesTo result u n fits where
  type x hx := ⟨k, Except.ok.inj (hx.symm.trans h)⟩
  value := by rw [h, Except.ok.injEq, ofBits_inj, hk]

/-- The functions on integers that C has. -/
inductive IntegerFunction where
  | abs
  | sign
  | extremum (greater : Bool)
  | clamp
  deriving DecidableEq

namespace IntegerFunction

def all : List IntegerFunction := [abs, sign, extremum true, extremum false, clamp]

def symbol : IntegerFunction → String
  | abs => "abs"
  | sign => "DIVER_SIGN"
  | extremum true => "DIVER_MAX"
  | extremum false => "DIVER_MIN"
  | clamp => "DIVER_CLAMP"

def name : IntegerFunction → String
  | abs => "Abs"
  | sign => "Sign"
  | extremum true => "Max"
  | extremum false => "Min"
  | clamp => "Clamp"

def arity : IntegerFunction → Nat
  | abs | sign => 1
  | extremum _ => 2
  | clamp => 3

/-- The type of a call in C. -/
def isUnsigned (fn : IntegerFunction) (args : List CInteger) : Bool :=
  fn.arity != 1 && args.any (·.isUnsigned)

/-- The absolute value of the least integer has no representation; an unsigned argument has the sign
of the machine if it is not negative there, and integers of the same sign have the same order. -/
def Suits : IntegerFunction → List CInteger → Prop
  | abs, [a] => a.bits ≠ Int32.minValue
  | sign, [a] => a.isUnsigned = true → 0 ≤ a.bits
  | extremum _, [a, b] => (a.isUnsigned || b.isUnsigned) = true → (0 ≤ a.bits ↔ 0 ≤ b.bits)
  | clamp, [a, low, high] =>
    let isUnsigned := a.isUnsigned || low.isUnsigned
    pick false (isUnsigned || high.isUnsigned) (pick true isUnsigned a.bits low.bits) high.bits =
      pick false false (pick true false a.bits low.bits) high.bits
  | _, _ => True

/-- The builtin is the function: by its name for the machine, by its symbol for C. -/
def isBuiltin (fn : IntegerFunction) (b : Builtin) (symbol : CSymbol) : Bool :=
  fn.symbol == symbol.symbol && Library.name? b.signature == some fn.name &&
    Library.arity b.signature == fn.arity

theorem standard_functions : ∀ b ∈ Builtin.standard, (b.native.all fun symbol =>
    symbol.ret == .f32 || all.any (·.isBuiltin b symbol) && (CType.ofTag? symbol.ret != some .u4)) =
      true := by
  decide +kernel

variable {fn : IntegerFunction} {signature : String} {args : List CInteger} {n : Int32}

theorem call_integers (hname : Library.name? signature = some fn.name) (hfn : fn ≠ sign)
    (ns : List Int32) : Library.call signature false (ns.map .i4) =
      (Library.integerFunction fn.name ns).map .i4 := by
  have hne : (fn.name == "Sign") = false := by
    cases fn with
    | sign => exact absurd rfl hfn
    | abs | clamp => decide
    | extremum greater => cases greater <;> decide
  have hints : (ns.map Value.i4).mapM Value.int? = some ns := by
    induction ns with
    | nil => rfl
    | cons n ns ih =>
      rw [List.map_cons, List.mapM_cons, ih]
      rfl
  rw [Library.call, hname]
  simp only [Option.bind_eq_bind, Option.bind_some, Bool.false_eq_true, if_false, hne, hints]
  cases Library.integerFunction fn.name ns <;> rfl

theorem call_sign (hname : Library.name? signature = some sign.name) (x : Int32) :
    Library.call signature false [.i4 x] = some (.i4 (signOf x.toInt)) := by
  rw [Library.call, hname]
  show some (Value.i4 (if Binary32.less 0 (Binary32.ofInt x.toInt) then 1
    else if Binary32.less (Binary32.ofInt x.toInt) 0 then -1 else 0)) = _
  rw [(Binary32.less_zero _).1, (Binary32.less_zero _).2]
  simp [signOf]

theorem integerFunction_of_call (hname : Library.name? signature = some fn.name) (hfn : fn ≠ sign)
    (h : Library.call signature false (args.map fun a => .i4 a.bits) = some (.i4 n)) :
    Library.integerFunction fn.name (args.map (·.bits)) = some n := by
  have hcall := call_integers hname hfn (args.map (·.bits))
  rw [List.map_map] at hcall
  obtain ⟨k, hk, hn⟩ := Option.map_eq_some_iff.1 (hcall.symm.trans h)
  cases hn
  exact hk

/-- **Functions of integers.** C has the result of the machine just if the arguments fit. -/
theorem comesTo (hname : Library.name? signature = some fn.name) (hlength : args.length = fn.arity)
    (h : Library.call signature false (args.map fun a => .i4 a.bits) = some (.i4 n)) :
    ComesTo (libraryCall fn.symbol (args.map (·.number))) (fn.isUnsigned args) n (fn.Suits args) := by
  cases fn with
  | abs =>
    obtain ⟨a, rfl⟩ := List.length_eq_one_iff.1 hlength
    cases integerFunction_of_call hname (by decide) h
    have hcall : libraryCall abs.symbol [a.number] = checked a.bits.toInt.natAbs := by
      show ((CNumber.ofBits _ _).cast .i4 >>= _) = _
      rw [cast_ofBits_i4]
      rfl
    by_cases hmin : a.bits = Int32.minValue
    · have hfault : checked a.bits.toInt.natAbs = .error .overflow := by
        rw [hmin]
        decide
      rw [List.map_cons, List.map_nil, hcall, hfault]
      exact ⟨fun x hx => (by cases hx), fun hx => (by cases hx), fun hfits => absurd hmin hfits⟩
    · exact .of_ok (hcall.trans (checked_natAbs hmin)) ⟨fun _ => hmin, fun _ => rfl⟩
  | sign =>
    obtain ⟨a, rfl⟩ := List.length_eq_one_iff.1 hlength
    cases (call_sign hname a.bits).symm.trans h
    exact .of_ok (congrArg Except.ok (sign_ofBits _ _)) (signOf_reading_iff _ _)
  | extremum greater =>
    obtain ⟨a, b, rfl⟩ := List.length_eq_two.1 hlength
    have hmachine := integerFunction_of_call hname (by simp) h
    have hboth := extremum_ofBits a.isUnsigned b.isUnsigned a.bits b.bits
    have hsigned := pick_signed a.bits b.bits
    have hn : n = pick greater false a.bits b.bits := by
      cases greater with
      | false => exact (Option.some.inj hmachine).symm.trans hsigned.2.symm
      | true => exact (Option.some.inj hmachine).symm.trans hsigned.1.symm
    have hcall : libraryCall (extremum greater).symbol [a.number, b.number] =
        .ok (.ofBits (a.isUnsigned || b.isUnsigned)
          (pick greater (a.isUnsigned || b.isUnsigned) a.bits b.bits)) := by
      cases greater with
      | false => exact congrArg Except.ok hboth.2
      | true => exact congrArg Except.ok hboth.1
    have htype : (extremum greater).isUnsigned [a, b] = (a.isUnsigned || b.isUnsigned) := by
      simp [isUnsigned, arity]
    rw [htype, hn]
    refine .of_ok hcall ?_
    show _ ↔ ((a.isUnsigned || b.isUnsigned) = true → _)
    cases a.isUnsigned || b.isUnsigned with
    | false => simp
    | true => simpa using pick_unsigned_iff greater a.bits b.bits
  | clamp =>
    obtain ⟨a, low, high, rfl⟩ := List.length_eq_three.1 hlength
    have hmachine := Option.some.inj (integerFunction_of_call hname (by decide) h)
    have hn : n = pick false false (pick true false a.bits low.bits) high.bits := by
      rw [(pick_signed _ _).2, (pick_signed _ _).1]
      exact hmachine.symm
    have hcall : libraryCall clamp.symbol [a.number, low.number, high.number] =
        .ok (.ofBits (a.isUnsigned || low.isUnsigned || high.isUnsigned) _) :=
      congrArg Except.ok ((congrArg (CNumber.min · high.number) (extremum_ofBits _ _ _ _).1).trans
        (extremum_ofBits _ _ _ _).2)
    have htype : clamp.isUnsigned [a, low, high] = (a.isUnsigned || low.isUnsigned || high.isUnsigned) := by
      simp [isUnsigned, arity, Bool.or_assoc]
    rw [htype, hn]
    exact .of_ok hcall Iff.rfl

end IntegerFunction

end DeviceCode
