import DeviceCode.Proofs.CUnit.Stack
import DeviceCode.Proofs.Integers.Operations

/-!
# The C text on integers

What the statements of an instruction of the core do, measured against `Op.Acts`. `CEmitter.Mirrors`: the
symbolic stack comes to the integers on the stack of a machine frame, and the variables are those of the
frame. Main statements: `next_runs`, `store_runs`, `branch_runs` and `ret_runs`, the statements of an
instruction lead from a C frame that mirrors the machine before an action to one that mirrors it after
the action.
-/

namespace DeviceCode

open CUnit

open COperand

open CFunction

open List

variable {m : CompiledMethod} {layout : LayoutTable} {x : Int32} {rest : List CStmt}
  {targets : List UInt64} {target : Option Nat}

theorem Storage.eq_scalar {storage : Storage} (h : storage.tag = .i32) :
    ∃ narrowed, storage = .scalar .i32 narrowed := by
  cases storage with
  | scalar tag narrowed => exact ⟨narrowed, congrArg (scalar · narrowed) h⟩
  | _ => cases h

/-- The method of the scope is one on integers, with the layout of its build. -/
structure CScope.Integers (s : CScope) (layout : LayoutTable) : Prop where
  known : s.layout = some layout
  method : s.method.Integers layout
  result : ∀ storage, s.method.ret = some storage → storage.tag = .i32

/-! ## Declared variables -/

theorem lookup_const {α κ β : Type} [BEq κ] [LawfulBEq κ] {key : α → κ} (b : β) {k : κ} :
    ∀ {xs : List α}, (∃ a ∈ xs, key a = k) → (xs.map fun a => (key a, b)).lookup k = some b
  | [], h => by simp at h
  | a :: xs, h => by
    rw [map_cons, lookup_cons]
    split
    · rfl
    · rename_i hk
      obtain ⟨a', ha', hk'⟩ := h
      refine lookup_const b ⟨a', (mem_cons.1 ha').resolve_left fun heq => ?_, hk'⟩
      exact beq_eq_false_iff_ne.1 hk (heq ▸ hk'.symm)

theorem CFunction.localDeclarations_eq (h : m.locals.areaSlots.Integers) :
    localDeclarations m = (List.range m.locals.slots.size).map fun n => (n, .i4) := by
  have htags : ∀ item ∈ m.locals.slots.toList.zipIdx, item.1.tag = .i32 := fun item hitem =>
    h.tags ⟨item.1.offset.toNat, item.1.tag⟩
      (mem_map.2 ⟨item.1, fst_mem_of_mem_zipIdx hitem, rfl⟩)
  have hsome : ∀ item ∈ m.locals.slots.toList.zipIdx,
      (CType.ofTag? item.1.tag).map (fun type => (item.2, type)) = some (item.2, .i4) := by
    intro item hitem
    rw [htags item hitem]
    rfl
  calc localDeclarations m
      = m.locals.slots.toList.zipIdx.filterMap fun item => some (item.2, .i4) :=
        filterMap_congr hsome
    _ = (m.locals.slots.toList.zipIdx.map (·.2)).map fun n => (n, .i4) := by
        rw [map_map]
        exact congrFun filterMap_eq_map _
    _ = _ := by rw [zipIdx_map_snd, ← range_eq_range', Array.length_toList]

theorem CFunction.typeOf?_located {fn : CFunction} (hlocals : fn.locals = localDeclarations m)
    (hm : m.Integers layout) {v : CVar} {place : CPlace} {home : Home}
    (h : m.Locates layout v place home) : fn.typeOf? place = some .i4 := by
  cases h with
  | argument _ => rfl
  | static _ => rfl
  | @localVar n slot there =>
    have hlt : n.toNat < m.locals.slots.size := (Array.getElem?_eq_some_iff.1 there).1
    rw [typeOf?, hlocals, localDeclarations_eq hm.locals]
    exact lookup_const CType.i4 ⟨n.toNat, mem_range.2 hlt, rfl⟩

namespace CEmitter

/-! ## Signatures -/

theorem resultType_int32 (h : ∀ storage, m.ret = some storage → storage.tag = .i32) :
    resultType m = .ok (m.ret.map fun _ => .i4) := by
  unfold resultType
  cases hret : m.ret with
  | none => rfl
  | some storage =>
    obtain ⟨narrowed, rfl⟩ := Storage.eq_scalar (h storage hret)
    rfl

theorem argumentSlots_int32 (h : ∀ slot ∈ m.args.slots.toList, slot.tag = .i32) :
    argumentSlots m = .ok (m.args.slots.toList.map fun slot => (slot.offset + 1, .i4)) := by
  refine except_mapM_ok.2 (forall₂_map_right_iff.2 (forall₂_same.2 fun slot hslot => ?_))
  rw [h slot hslot]
  rfl

/-! ## Operands of instructions -/

section
variable {s : CScope} {index : Nat} {site : Site} {op : Op} {access : Access} {v : CVar}
  {place : CPlace} {home : Home}

theorem accesses_of_located (hs : s.Integers layout) (hsite : s.method.sites[index]? = some site)
    (hint : site.isInt32 = true) (haccessed : op.accessed? site = some (access, v))
    (hlocated : s.method.Locates layout v place home) : Accesses s index access op place .i4 v := by
  unfold Op.accessed? at haccessed
  split at haccessed
  · cases haccessed
    cases hlocated with
    | argument there =>
      have htag := hs.method.args.tags _ (mem_of_getElem? (SlotList.getElem?_places there))
      exact .argument there (congrArg CType.ofTag? htag)
  · cases haccessed
    cases hlocated with
    | localVar there =>
      have htag := hs.method.locals.tags _ (mem_of_getElem? (SlotList.getElem?_places there))
      exact .localVar there (congrArg CType.ofTag? htag)
  · split at haccessed
    · cases haccessed
      simp only [Site.isInt32, Bool.and_eq_true, Bool.not_eq_true', beq_iff_eq] at hint
      obtain ⟨⟨-, rfl⟩, rfl⟩ := hint
      cases hlocated with
      | static there =>
        refine .static hsite rfl ?_
        rw [staticOffset, hs.known]
        simp [LayoutTable.fieldOffset?, there]
    · cases haccessed
  · cases haccessed

end

section
variable {e : CEmitter} {cf : CFrame} {xs ys : List Int32}

variable {op : Op} {parts : List COperand}

/-- **What an operation computes** is the operand that is written for it. -/
theorem computes_of_value (s : CScope) (index : Nat) {z : Int32} (hvalue : op.value? ys = some z)
    (hparts : List.Forall₂ (COperand.Means m layout cf) parts ys) :
    ∃ o, Computes s index op parts o ∧ o.Means m layout cf z := by
  have htracked : ∀ p ∈ parts, p.Tracked (m.Names layout) := fun p hp => by
    obtain ⟨y, -, hy⟩ := forall₂_mem_right hparts.flip p hp
    exact hy.tracked
  suffices hcomputed : ∃ o, Computes s index op parts o ∧ o.Yields cf z by
    obtain ⟨o, hcomputes, hyields⟩ := hcomputed
    exact ⟨o, hcomputes, hyields, hcomputes.computedFrom.tracked htracked⟩
  unfold Op.value? at hvalue
  split at hvalue
  · rename_i b x y
    obtain _ | ⟨ha, _ | ⟨hb, _ | _⟩⟩ := hparts
    cases hop : Value.integerOp x y b with
    | error e =>
      rw [hop] at hvalue
      cases hvalue
    | ok z' =>
      rw [hop] at hvalue
      cases hvalue
      obtain ⟨o, ho, hyields⟩ := binary_yields ha.toYields hb.toYields hop
      exact ⟨o, .binary ho, hyields⟩
  · cases hvalue
    obtain _ | ⟨ha, _ | _⟩ := hparts
    obtain ⟨o, ho, hyields⟩ := neg_yields ha.toYields
    exact ⟨o, .neg ho, hyields⟩
  · cases hvalue
    obtain _ | ⟨ha, _ | _⟩ := hparts
    obtain ⟨o, ho, hyields⟩ := complement_yields ha.toYields
    exact ⟨o, .not ho, hyields⟩
  · cases hvalue
    rename_i relation isUnsigned x y
    obtain _ | ⟨ha, _ | ⟨hb, _ | _⟩⟩ := hparts
    obtain ⟨o, ho, hyields⟩ :=
      compare_yields relation.comparison isUnsigned ha.toYields hb.toYields
    exact ⟨o, .compare ho, hyields⟩
  · cases hvalue

variable {u : CUnit} {fn : CFunction}

theorem eval_condition (sense : Bool) {expr : CExpr} (hx : expr.eval cf = .ok (.int x)) :
    ∃ y, (if sense then expr else .unary .logicalNot (.paren expr)).eval cf = .ok y ∧
      (y.isTrue = true ↔ (x != 0) = sense) := by
  cases sense with
  | true => exact ⟨_, hx, Iff.rfl⟩
  | false =>
    refine ⟨CNumber.ofBool !(CNumber.int x).isTrue, ?_, ?_⟩
    · rw [if_neg Bool.false_ne_true, CExpr.eval_unary_ok ((CExpr.eval_paren expr).trans hx)]
      rfl
    · by_cases hzero : x = 0 <;> simp [CNumber.isTrue, CNumber.ofBool, hzero]

theorem gotoIf_runs {condition : CExpr} {taken : Prop} [Decidable taken]
    (h : ∃ y, condition.eval cf = .ok y ∧ (y.isTrue = true ↔ taken)) (target : Nat) :
    ((if taken then some target else none) = none →
        u.Goes fn cf (.gotoIf condition target :: rest) cf rest) ∧
      ∀ t statements, (if taken then some target else none) = some t →
        fn.behindLabel? t = some statements →
        u.Goes fn cf (.gotoIf condition target :: rest) cf statements := by
  obtain ⟨y, hy, htrue⟩ := h
  by_cases htaken : taken
  · rw [if_pos htaken]
    refine ⟨by simp, fun t statements ht hlabel => ?_⟩
    cases ht
    exact goes_gotoIf_taken hy (htrue.2 htaken) hlabel
  · rw [if_neg htaken]
    refine ⟨fun _ => goes_gotoIf_passed target hy ?_, by simp⟩
    exact Bool.eq_false_iff.2 fun h => htaken (htrue.1 h)

/-- A switch takes its value for an unsigned one on the device; in C a negative value goes on. There are
too few targets for that to matter. -/
theorem switchTarget?_int (hlength : targets.length < 65536) (x : Int32) :
    CFunction.switchTarget? (targets.map (·.toNat)) (.int x) =
      .ok (targets[x.toUInt32.toNat]?.map (·.toNat)) := by
  have hword : x.toInt = if 2 * x.toUInt32.toNat < 4294967296 then (x.toUInt32.toNat : Int)
      else x.toUInt32.toNat - 4294967296 := BitVec.toInt_eq_toNat_cond x.toBitVec
  rw [switchTarget?, ← getElem?_map]
  by_cases hneg : x < 0
  · have hneg' : x.toInt < 0 := Int32.lt_iff_toInt_lt.1 hneg
    rw [if_pos hneg, getElem?_eq_none]
    rw [length_map]
    split at hword <;> omega
  · have hpos : ¬ x.toInt < 0 := fun h => hneg (Int32.lt_iff_toInt_lt.2 h)
    rw [if_neg hneg]
    have hlt := x.toUInt32.toNat_lt
    split at hword
    · rw [hword, Int.toNat_natCast]
    · omega

theorem switch_runs (hlength : targets.length < 65536) {value : CExpr}
    (hx : value.eval cf = .ok (.int x)) :
    (targets[x.toUInt32.toNat]?.map (·.toNat) = none →
        u.Goes fn cf (.switch value (targets.map (·.toNat)) :: rest) cf rest) ∧
      ∀ t statements, targets[x.toUInt32.toNat]?.map (·.toNat) = some t →
        fn.behindLabel? t = some statements →
        u.Goes fn cf (.switch value (targets.map (·.toNat)) :: rest) cf statements := by
  have htarget := switchTarget?_int hlength x
  refine ⟨fun hnone => ?_, fun t statements ht hlabel => ?_⟩
  · rw [hnone] at htarget
    exact goes_switch_passed hx htarget
  · rw [ht] at htarget
    exact goes_switch_taken hx htarget hlabel

/-- **Where an operation goes** is where the statement that is written for it goes. -/
theorem branches_of_branch (u : CUnit) (fn : CFunction) (hbranch : op.branch? ys = some target)
    (htargets : ∀ ts, op = .switch ts → ts.length < 65536)
    (hparts : List.Forall₂ (COperand.Means m layout cf) parts ys) :
    ∃ st, Branches op parts st ∧ ∀ cf', List.Forall₂ (COperand.Means m layout cf') parts ys →
      ∀ rest, (target = none → u.Goes fn cf' (st :: rest) cf' rest) ∧
        ∀ t statements, target = some t → fn.behindLabel? t = some statements →
          u.Goes fn cf' (st :: rest) cf' statements := by
  unfold Op.branch? at hbranch
  split at hbranch
  · cases hbranch
    obtain _ | _ := hparts
    refine ⟨_, .jump _, fun cf' _ rest => ⟨by simp, fun t statements ht hlabel => ?_⟩⟩
    cases ht
    exact goes_goto hlabel
  · rename_i sense target x
    cases hbranch
    obtain _ | ⟨_, _ | _⟩ := hparts
    refine ⟨_, .jumpIf sense target _, fun cf' hparts rest => ?_⟩
    obtain _ | ⟨ha, _ | _⟩ := hparts
    exact gotoIf_runs (eval_condition sense ha.value) _
  · rename_i cmp isUnsigned target x y
    cases hbranch
    obtain _ | ⟨ha, _ | ⟨hb, _ | _⟩⟩ := hparts
    obtain ⟨o, ho, -⟩ := compare_yields cmp isUnsigned ha.toYields hb.toYields
    refine ⟨_, .jumpCmp target ho, fun cf' hparts rest => ?_⟩
    obtain _ | ⟨ha', _ | ⟨hb', _ | _⟩⟩ := hparts
    obtain ⟨o', ho', hyields⟩ := compare_yields cmp isUnsigned ha'.toYields hb'.toYields
    cases ho.symm.trans ho'
    refine gotoIf_runs ⟨_, hyields.value, ?_⟩ _
    cases cmp.holds isUnsigned x y <;> rfl
  · rename_i targets x
    cases hbranch
    obtain _ | ⟨_, _ | _⟩ := hparts
    refine ⟨_, .switch targets _, fun cf' hparts rest => ?_⟩
    obtain _ | ⟨ha, _ | _⟩ := hparts
    exact switch_runs (htargets targets rfl) ha.value
  · cases hbranch

end

/-! ## Statements of instructions -/

/-- The symbolic stack comes to the integers, and the variables are those of the machine. -/
structure Mirrors (m : CompiledMethod) (layout : LayoutTable) (f : Frame) (statics : SlotArea)
    (xs : List Int32) (e : CEmitter) (cf : CFrame) : Prop where
  holds : Holds m layout e cf xs
  represents : m.Represents layout f statics cf

section
variable {s : CScope} {index n : Nat} {site : Site} {op : Op} {last : Bool} {e e' : CEmitter}
  {cf : CFrame} {f : Frame} {statics : SlotArea} {xs ys : List Int32} {u : CUnit} {fn : CFunction}

/-- **Operands that are put into their temporaries** keep their values, and so do those that were taken
off before. -/
theorem Mirrors.spills {taken : List COperand} (h : Mirrors m layout f statics xs e cf)
    (htaken : List.Forall₂ (COperand.Means m layout cf) taken ys) (hw : fn.Within e')
    (hspills : ∃ ws, Spilling taken e e' ws) :
    ∃ cf', u.Goes fn cf (fn.after e) cf' (fn.after e') ∧ Mirrors m layout f statics xs e' cf' ∧
      List.Forall₂ (COperand.Means m layout cf') taken ys := by
  obtain ⟨ws, hspills, hwrote, hdeclared⟩ := hspills
  obtain ⟨cf', hgoes, hmeans, hsame⟩ := hspills.runs (u := u) hwrote.unclobbered
    (fun w hmem d t ht => hw.temporaries _ (hdeclared w hmem d t ht)) (rel_append h.holds htaken)
    (fn.after e')
  rw [← after_eq hw hwrote.body] at hgoes
  have hlength : e'.stack.toList.length = xs.length := by
    have hall := hmeans.length_eq
    have htop := htaken.length_eq
    rw [length_append, length_append] at hall
    omega
  have hstack := forall₂_take_append _ _ _ hmeans
  have htop := forall₂_drop_append _ _ _ hmeans
  rw [take_left' hlength] at hstack
  rw [drop_left' hlength] at htop
  have hr := h.represents
  exact ⟨cf', hgoes, ⟨hstack, { hr with
    sameArgs := hsame.args ▸ hr.sameArgs
    sameStatics := hsame.statics ▸ hr.sameStatics
    vars := fun n slot hn => (hsame.places _ (by simp)).trans (hr.vars n slot hn) }⟩, htop⟩

variable (hs : s.Integers layout) (hsite : s.method.sites[index]? = some site)
  (hint : site.isInt32 = true) (hv : Valid e) (hstep : e.step s index op last = .ok e')
  (hw : fn.Within e') (hm : Mirrors s.method layout f statics xs e cf)
include hs hsite hint hv hstep hw hm

/-- **An instruction after which control goes on.** -/
theorem next_runs (hacts : Op.Acts s.methods layout s.method site f statics op xs (.next ys)) :
    ∃ cf', u.Goes fn cf (fn.after e) cf' (fn.after e') ∧
      Mirrors s.method layout f statics ys e' cf' := by
  cases hacts with
  | nop =>
    cases hstep
    exact ⟨cf, .refl, hm⟩
  | load accessed located =>
    cases ((accesses_of_located hs hsite hint accessed located).step_load last e).symm.trans hstep
    refine ⟨cf, .refl, hm.holds.push ?_, hm.represents⟩
    exact means_ofPlace (.ofVariable located) (hm.represents.get hs.method located)
  | @const x =>
    cases ((Literal.i4 x).step s index last e).symm.trans hstep
    exact ⟨cf, .refl, hm.holds.push (means_int _ _ _ _), hm.represents⟩
  | @dup x xs =>
    obtain ⟨o, e₁, hsettles, htop, -, hdup⟩ := dup_ok hv hm.holds.split.1
    cases hdup.symm.trans hstep
    have hw₁ : fn.Within e₁ := ⟨hw.body, hw.temporaries⟩
    obtain ⟨cf', hgoes, hm', -⟩ := hm.spills (u := u) .nil hw₁ (hsettles.spills hv (forall_mem_nil _))
    obtain ⟨hsize, -, hparts⟩ := hm'.holds.split
    rw [drop_top hsize htop] at hparts
    obtain _ | ⟨ho, _ | _⟩ := hparts
    exact ⟨cf', hgoes, hm'.holds.push ho, hm'.represents⟩
  | @pop x =>
    obtain ⟨hsize, hholds, -⟩ := hm.holds.split
    obtain ⟨o, -, hpop⟩ := pop_ok e hsize
    have hstep' : e.step s index .pop last = .ok (e.lower ys.length) :=
      except_bind_ok.2 ⟨_, hpop, rfl⟩
    cases hstep'.symm.trans hstep
    exact ⟨cf, .refl, hholds, hm.represents⟩
  | @compute _ zs z xs value =>
    obtain ⟨hsize, hholds, hparts⟩ := hm.holds.split
    obtain ⟨o, hcomputes, hmeans⟩ := computes_of_value s index value hparts
    have hlength := hparts.length_eq
    cases (hcomputes.step (hlength ▸ hsize) rfl last).symm.trans hstep
    exact ⟨cf, .refl, hholds.push hmeans, hm.represents⟩

/-- **An instruction that stores to a variable.** -/
theorem store_runs (hlocals : fn.locals = CFunction.localDeclarations s.method) {home : Home}
    (hacts : Op.Acts s.methods layout s.method site f statics op xs (.store home x ys)) :
    ∃ cf', u.Goes fn cf (fn.after e) cf' (fn.after e') ∧
      Mirrors s.method layout (home.putFrame f x) (home.putStatics statics x) ys e' cf' := by
  cases hacts with
  | @store _ v place _ _ _ accessed located =>
    have access := accesses_of_located hs hsite hint accessed located
    obtain ⟨hsize, hholds, hparts⟩ := hm.holds.split
    obtain ⟨o, e₁, htop, hsettles, hunread, hstore⟩ := store_ok hv hsize access.not_temporary.2 place
    cases (access.step_store last hstore).symm.trans hstep
    have hn : ys.length ≤ e.stack.size := by omega
    obtain ⟨cf₁, hgoes, hm₁, hparts₁⟩ := Mirrors.spills (u := u) ⟨hholds, hm.represents⟩ hparts
      hw.of_write (hsettles.spills (hv.lower hn) (hv.safe_taken hn))
    rw [drop_top hsize htop] at hparts₁
    obtain _ | ⟨ho₁, _ | _⟩ := hparts₁
    have hfits := hm₁.represents.fits hs.method located
    refine ⟨cf₁.put place x, hgoes.trans ?_, ?_, hm₁.represents.put hs.method located x⟩
    · rw [after_write hw]
      exact goes_assign ho₁.value
        (assign_ok (typeOf?_located hlocals hs.method located) hfits x)
    · refine Holds.of_stack (e := e₁) (hm₁.holds.of_means fun d o' y ho' hy => ?_) rfl
      exact hy.put hs.method hfits located (hunread d o' ho') x

omit hs hsite hint in
/-- **An instruction that branches.** -/
theorem branch_runs (htargets : ∀ ts, op = .switch ts → ts.length < 65536)
    (hacts : Op.Acts s.methods layout s.method site f statics op xs (.branch target ys)) :
    ∃ cf', Mirrors s.method layout f statics ys e' cf' ∧
      (target = none → u.Goes fn cf (fn.after e) cf' (fn.after e')) ∧
      ∀ t statements, target = some t → fn.behindLabel? t = some statements →
        u.Goes fn cf (fn.after e) cf' statements := by
  cases hacts with
  | @branch _ zs _ xs goes =>
    obtain ⟨hsize, hholds, hparts⟩ := hm.holds.split
    obtain ⟨st, hbranches, hst⟩ := branches_of_branch u fn goes htargets hparts
    have hlength := hparts.length_eq
    cases (hbranches.step hv (hlength ▸ hsize) rfl s index last).symm.trans hstep
    have hn : ys.length ≤ e.stack.size := by omega
    obtain ⟨cf', hgoes, hm', hparts'⟩ := Mirrors.spills (u := u) ⟨hholds, hm.represents⟩ hparts
      hw.of_write (spills_materializeAll (hv.lower hn) (hv.safe_taken hn))
    obtain ⟨hpassed, htaken⟩ := hst cf' hparts'
      (fn.after ((e.lower ys.length).materializeAll.write st))
    rw [← after_write hw] at hpassed htaken
    exact ⟨cf', ⟨hm'.holds.of_stack rfl, hm'.represents⟩,
      fun hnone => hgoes.trans (hpassed hnone),
      fun t statements ht hlabel => hgoes.trans (htaken t statements ht hlabel)⟩

omit hsite hint hv in
/-- **An instruction that returns.** At the end of the text nothing is written for it. -/
theorem ret_runs (hret : fn.ret = CFunction.returnType s.method) {value : Option Int32}
    (hlast : last = true → fn.after e' = [])
    (hacts : Op.Acts s.methods layout s.method site f statics op xs (.ret value)) :
    u.Finishes fn cf (fn.after e) ⟨value.map .int, cf.args, cf.statics⟩ := by
  cases hacts with
  | returnNone void =>
    have hstep' : e.step s index .ret last = .ok (if last then e else e.write (.ret none)) := by
      show e.ret s last = _
      rw [ret, void]
    have hvoid : fn.ret = none := by rw [hret, returnType, void]
    cases hstep'.symm.trans hstep
    cases last with
    | true =>
      have hend : fn.after e = [] := hlast rfl
      rw [hend]
      exact finishes_end hvoid
    | false =>
      rw [show fn.after e = _ from after_write hw]
      exact finishes_ret hvoid
  | @returnValue x xs result =>
    obtain ⟨storage, hstorage⟩ := Option.ne_none_iff_exists'.1 result
    obtain ⟨narrowed, rfl⟩ := Storage.eq_scalar (hs.result storage hstorage)
    have hvalue : fn.ret = some .i4 := by rw [hret, returnType, hstorage]; rfl
    obtain ⟨hsize, -, hparts⟩ := hm.holds.split
    obtain ⟨o, htop, hpop⟩ := pop_ok e hsize
    rw [drop_top hsize htop] at hparts
    obtain _ | ⟨ho, _ | _⟩ := hparts
    have hstep' : e.step s index .ret last =
        .ok ((e.lower xs.length).write (.ret (some o.expr))) := by
      show e.ret s last = _
      rw [ret, hstorage]
      exact except_bind_ok.2 ⟨_, hpop, rfl⟩
    cases hstep'.symm.trans hstep
    rw [show fn.after e = _ from after_write (e := e.lower xs.length) hw]
    exact finishes_ret_value hvalue ho.value

end

end CEmitter

end DeviceCode
