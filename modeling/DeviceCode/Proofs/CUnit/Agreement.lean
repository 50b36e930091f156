import DeviceCode.Proofs.CUnit.Step

/-!
# Planning and writing agree

A method is planned on canonical stacks before the link, and written on symbolic stacks after it. Main
statements: the stack is valid again after an instruction, and the statements are those of the
instruction (`Emits.continues`); what could be written in one scope can be written in another one that
knows as much (`Typing.mono`).
-/

namespace DeviceCode

open COperand

open List

variable {target m m' : CompiledMethod} {ret : Option CType} {slots : List (UInt16 × CType)}

/-- The instruction at the position may write the statement. -/
structure CScope.Permits (s : CScope) (index : Nat) (op : Op) (st : CStmt) : Prop where
  label : ∀ i, st ≠ .label i
  targets : ∀ t ∈ st.targets, t ∈ op.targets
  callee : ∀ k, st.callee? = some k → (∃ isVirtual m, op = .call isVirtual m) ∧
    ∃ pops storage, s.method.sites[index]? = some (.call (.user k) pops storage)

theorem CStmt.IsPlain.permits {st : CStmt} (h : st.IsPlain) (s : CScope) (index : Nat) (op : Op) :
    s.Permits index op st where
  label := h.label
  targets t ht := by
    rw [h.targets] at ht
    cases ht
  callee k hk := by
    rw [h.callee] at hk
    cases hk

/-- Of all that the method of the first scope refers to, the second knows as much. -/
structure CScope.Serves (s s' : CScope) : Prop where
  args : s'.method.args = s.method.args
  locals : s'.method.locals = s.method.locals
  ret : s'.method.ret = s.method.ret
  sites : s'.method.sites = s.method.sites
  builtins : s'.builtins = s.builtins
  field : ∀ (index : Nat) key region tag, s.method.sites[index]? = some (.field key region false tag) →
    ∃ offset, CEmitter.staticOffset s' key = .ok offset
  callee : ∀ (index k : Nat) pops storage target,
    s.method.sites[index]? = some (.call (.user k) pops storage) → s.methods[k]? = some target →
    ∃ target', s'.methods[k]? = some target' ∧ target'.args = target.args ∧
      target'.ret = target.ret ∧ target'.cStatus.reason? = none

namespace CEmitter

variable {s s' : CScope} {e e' : CEmitter} {index n k : Nat} {op : Op} {last : Bool} {o : COperand}

/-! ## What is left after an instruction -/

/-- What writing an instruction keeps. -/
structure Continues (s : CScope) (index : Nat) (e : CEmitter) (op : Op) (e' : CEmitter) : Prop where
  valid : Valid e'
  writes : Writes (s.Permits index op) e e'

theorem Settles.continues (h : Settles (e.lower n) e') (hv : Valid e) (hn : n ≤ e.stack.size)
    (s : CScope) (index : Nat) (op : Op) : Continues s index e op e' ∧ e'.stack.size = n := by
  have hsettling := h.settling (hv.lower hn)
  exact ⟨⟨hsettling.valid, (writes_lower _ hn).trans
    (hsettling.writes.mono fun st hst => hst.permits s index op)⟩,
    hsettling.size.trans (size_lower e hn)⟩

theorem Valid.reading_drop (hv : Valid e) (ho : o ∈ e.stack.toList.drop n)
    {t : Nat × CType} (ht : t ∈ o.expr.temporaries) : e.Reading t := by
  obtain ⟨d, -, hd⟩ := exists_of_mem_drop ho
  exact hv.reading hd ht

theorem Continues.called (h : Continues s index e op e') (hv : Valid e)
    (calls : Calls s index op k target ret slots) (size n : Nat) :
    Continues s index e op (e'.called k size ret slots (e.stack.toList.drop n)) := by
  have hpermits : ∀ result args, s.Permits index op (.call result k size args) := fun result args =>
    ⟨by simp, fun t ht => absurd ht not_mem_nil, fun k' hk' => by
      cases hk'
      exact ⟨calls.call, calls.site⟩⟩
  have hargs : ∀ t, t ∈ (filled slots (e.stack.toList.drop n)).flatMap (·.value.temporaries) →
      e.Reading t := by
    intro t ht
    obtain ⟨arg, harg, ht⟩ := mem_flatMap.1 ht
    rw [filled, ← map_uncurry_zip_eq_zipWith] at harg
    obtain ⟨⟨slot, o⟩, hmem, rfl⟩ := mem_map.1 harg
    exact hv.reading_drop (of_mem_zip hmem).2 ht
  cases ret with
  | none =>
    refine ⟨h.valid.of_stack rfl, h.writes.write (hpermits _ _) fun t ht => .inl ?_⟩
    exact hargs t (by simpa [CStmt.temporaries] using ht)
  | some type =>
    have hdeclared := mem_useTemporary e' e'.stack.size type.stackClass
    have hwrites := h.writes.trans (writes_useTemporary _ e' e'.stack.size type.stackClass)
    have hvalid : ∀ st, Valid ((e'.useTemporary e'.stack.size type.stackClass).write st) := fun st =>
      h.valid.of_stack (useTemporary_stack e' _ _)
    refine ⟨(hvalid _).push (regular_temporary _ (CType.stackClass_stackClass type))
      fun d t hr => ?_, (hwrites.write (hpermits _ _) fun t ht => ?_).push fun d t hr => ?_⟩
    · cases reads_temporary hr
      exact .inl (Nat.le_of_eq (by simp [CEmitter.write]))
    · rw [CStmt.temporaries, mem_append] at ht
      rcases ht with ht | ht
      · obtain rfl : t = (e'.stack.size, type.stackClass) := by
          simpa [CPlace.temporary?] using ht
        exact .inr hdeclared
      · exact .inl (hargs t ht)
    · cases reads_temporary hr
      exact .inr hdeclared

/-- **The stack is valid again** after an instruction. -/
theorem Emits.continues (h : Emits s index last e op e') (hv : Valid e) :
    Continues s index e op e' := by
  have hself : Continues s index e op e := ⟨hv, Writes.refl _ e⟩
  cases h with
  | nop => exact hself
  | @load _ place type v access =>
    obtain ⟨hplace, hvar⟩ := access.not_temporary
    have hreads : ∀ {d t}, CVar.temporary d t ∉ (ofPlace place type v).reads := fun hr =>
      absurd (mem_singleton.1 hr).symm (hvar _ _)
    exact ⟨hv.push (regular_ofPlace _ hplace hvar) fun d t hr => absurd hr hreads,
      hself.writes.push fun d t hr => absurd hr hreads⟩
  | literal literal =>
    obtain ⟨expr, native, rfl, hexpr, hbare⟩ := literal.eq
    exact ⟨hv.push (regular_literal native hexpr hbare)
      fun d t hr => absurd hr not_mem_nil,
      hself.writes.push fun d t hr => absurd hr not_mem_nil⟩
  | @dup n o e₁ size settles top safe =>
    have hsettling := settles.settling hv
    have hsize : e₁.stack.size = n + 1 := hsettling.size.trans size
    have hwrites := hsettling.writes.mono fun st hst => hst.permits s index .dup
    exact ⟨hsettling.valid.push (hsettling.valid.operands n o top) (hsize ▸ safe),
      hwrites.push fun d t hr => hwrites.reading (d, t) ⟨n, o, top, hr⟩⟩
  | @pop n size => exact ⟨hv.lower (by omega), writes_lower _ (by omega)⟩
  | @store _ place type v access n o e₁ size top settles unread =>
    obtain ⟨⟨hvalid, hwrites⟩, -⟩ := settles.continues hv (by omega) s index op
    refine ⟨hvalid.of_stack rfl,
      hwrites.write ((CStmt.isPlain_assign _ _).permits s index op) fun t ht => .inl ?_⟩
    rw [CStmt.temporaries, access.not_temporary.1] at ht
    exact hv.reading top ht
  | @compute _ parts o n computes size there =>
    refine ⟨hv.push_computed (by omega) there computes.computedFrom,
      (writes_lower _ (by omega)).push fun d t hr => .inl ?_⟩
    obtain ⟨p, hp, hr⟩ := computes.computedFrom.reads hr
    obtain ⟨d', -, hd'⟩ := exists_of_mem_drop (there.symm ▸ hp)
    exact ⟨d', p, hd', hr⟩
  | @branch _ parts st n branches size there =>
    have hn : n ≤ e.stack.size := by omega
    have hsettling := settling_materializeAll (hv.lower hn)
    obtain ⟨htargets, hcallee, hlabel⟩ := branches.targets
    refine ⟨hsettling.valid.of_stack rfl, ((writes_lower _ hn).trans
      (hsettling.writes.mono fun st hst => hst.permits s index op)).write
        ⟨hlabel, fun t ht => htargets ▸ ht, fun k hk => ?_⟩ fun t ht => .inl ?_⟩
    · rw [hcallee] at hk
      cases hk
    · obtain ⟨o, ho, ht⟩ := branches.temporaries t ht
      exact hv.reading_drop (there.symm ▸ ho) ht
  | @call _ k target ret slots n e₁ calls size settles unread result =>
    exact (settles.continues hv (by omega) s index op).1.called hv calls _ n
  | returnNone void =>
    cases last with
    | true => exact hself
    | false => exact ⟨hv.of_stack rfl, hself.writes.write
        ⟨by simp, fun t ht => absurd ht not_mem_nil, fun k hk => by cases hk⟩
        fun t ht => absurd ht not_mem_nil⟩
  | @returnValue n o result size top =>
    refine ⟨(hv.lower (n := n) (by omega)).of_stack rfl, (writes_lower _ (by omega)).write
      ⟨by simp, fun t ht => absurd ht not_mem_nil, fun k hk => by cases hk⟩
      fun t ht => .inl (hv.reading top ?_)⟩
    simpa [CStmt.temporaries] using ht

theorem Emits.stack_of_target (h : Emits s index last e op e') (hv : Valid e) {t : Nat}
    (ht : t ∈ op.targets) : e'.stack = canonicalStack e'.types := by
  cases h with
  | @branch _ parts st n branches size there =>
    have hlow := hv.lower (n := n) (by omega)
    show (e.lower n).materializeAll.stack = canonicalStack (e.lower n).materializeAll.types
    rw [stack_materializeAll hlow, (settling_materializeAll hlow).types]
  | load access => cases access <;> cases ht
  | literal literal => cases literal <;> cases ht
  | store access => cases access <;> cases ht
  | compute computes => cases computes <;> cases ht
  | call calls =>
    obtain ⟨isVirtual, m, rfl⟩ := calls.call
    cases ht
  | _ => cases ht

/-! ## Other scopes -/

theorem Accesses.mono {access : Access} {place : CPlace} {type : CType} {v : CVar}
    (h : Accesses s index access op place type v) (hs : s.Serves s') :
    ∃ place', Accesses s' index access op place' type v := by
  cases h with
  | argument there scalar => exact ⟨_, .argument (hs.args ▸ there) scalar⟩
  | localVar there scalar => exact ⟨_, .localVar (hs.locals ▸ there) scalar⟩
  | static site scalar there =>
    obtain ⟨offset, hoffset⟩ := hs.field _ _ _ _ site
    exact ⟨_, .static (hs.sites ▸ site) scalar hoffset⟩

theorem Computes.mono {parts : List COperand} (h : Computes s index op parts o)
    (hs : s.Serves s') : Computes s' index op parts o := by
  cases h with
  | binary value => exact .binary value
  | compare value => exact .compare value
  | neg value => exact .neg value
  | not value => exact .not value
  | conv scalar value => exact .conv scalar value
  | convUnsigned value => exact .convUnsigned value
  | library site known scalar arity handles =>
    exact .library (hs.sites ▸ site) (hs.builtins ▸ known) scalar arity handles

theorem resultType_congr (h : m'.ret = m.ret) (hret : resultType m = .ok ret) :
    resultType m' = .ok ret := by
  unfold resultType at hret ⊢
  rw [h]
  split at hret
  · exact hret
  · rename_i tag narrowed _
    cases hscalar : CType.ofTag? tag with
    | none => simp [hscalar] at hret
    | some type => simpa [hscalar] using hret
  · exact hret
  · cases hret

theorem argumentSlots_congr (h : m'.args = m.args) (hslots : argumentSlots m = .ok slots) :
    argumentSlots m' = .ok slots := by
  unfold argumentSlots at hslots ⊢
  rw [except_mapM_ok] at hslots ⊢
  rw [h]
  refine hslots.imp fun slot x hx => ?_
  cases hscalar : CType.ofTag? slot.tag with
  | none => simp [hscalar] at hx
  | some type => simpa [hscalar] using hx

theorem Calls.mono (h : Calls s index op k target ret slots) (hs : s.Serves s') :
    ∃ target', Calls s' index op k target' ret slots := by
  obtain ⟨pops, storage, hsite⟩ := h.site
  obtain ⟨target', htarget, hargs, hret, hstatus⟩ := hs.callee index k pops storage target hsite h.callee
  exact ⟨target', h.call, ⟨pops, storage, hs.sites ▸ hsite⟩, htarget, hstatus,
    resultType_congr hret h.result, argumentSlots_congr hargs h.slots⟩

/-- **What can be written in one scope can be written in another one that knows as much.** -/
theorem Typing.mono {ts ts' : List CType} (h : Typing s index op ts ts') (hs : s.Serves s') :
    Typing s' index op ts ts' := by
  cases h with
  | nop => exact .nop
  | load access => exact .load (access.mono hs).choose_spec
  | literal literal => exact .literal literal
  | dup => exact .dup
  | pop => exact .pop
  | store access => exact .store (access.mono hs).choose_spec
  | compute computes => exact .compute (computes.mono hs)
  | branch branches => exact .branch branches
  | call calls arity => exact .call (calls.mono hs).choose_spec arity
  | returnNone void => exact .returnNone (hs.ret.trans void)
  | returnValue result =>
    refine .returnValue ?_
    unfold CScope.ReturnsValue
    rw [hs.ret]
    exact result

end CEmitter

end DeviceCode
