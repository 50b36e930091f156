import DeviceCode.Proofs.Integers.Statements
import DeviceCode.Proofs.Machine.Slots

/-!
# Calls on integers

The machine and the C text fill the argument area of a call with the same integers (`fill_agrees`), and
they enter a method with the same variables (`MethodAt.represents_enter`). Main statement: `call_runs`, the
statements of a call run the function that is called on such an area, and when it has come to the result
of the machine, the C frame mirrors the machine again.
-/

namespace DeviceCode

open AreaSlots

open SlotArea

open CFunction

open List

variable {size : Nat} {m : CompiledMethod} {records : List SlotRecord}
  {cargs cstatics statics' args : SlotArea} {slots : List (UInt16 × CType)} {operands : List COperand}
    {g : CFunction}

/-! ## New areas -/

namespace AreaSlots

section
variable {a : AreaSlots} (hrecords : records.map (·.tag) = a.places.map (·.tag.id))
  (htiled : a.Tiled) {s : SlotPlace}
include hrecords htiled

theorem getElem?_ofSlots (hs : s ∈ a.places) {i : Nat} (hlt : s.offset < i)
    (hi : i < s.stop) : (SlotArea.ofSlots records)[i]? = some 0 := by
  obtain ⟨n, rfl⟩ : ∃ n, i = s.offset + (n + 1) := ⟨i - s.offset - 1, by omega⟩
  have hn : n + 1 < s.tag.slotSize := Nat.lt_of_add_lt_add_left hi
  rw [(holds_ofSlots hrecords htiled hs).getElem? (by rw [length_emptySlot]; exact hn), emptySlot,
    getElem?_cons_succ, getElem?_replicate, if_pos (by omega)]

theorem samePayloads_new (hsize : a.size ≤ size) :
    a.SamePayloads (SlotArea.ofSlots records) (Array.replicate size 0) := by
  intro s hs i hlt hi
  have hstop := htiled.stop_le hs
  rw [getElem?_ofSlots hrecords htiled hs hlt hi, Array.getElem?_replicate, if_pos (by omega)]

omit htiled in
theorem intAt_ofSlots (h : a.Integers) (hs : s ∈ a.places) :
    (SlotArea.ofSlots records).intAt (s.offset + 1) = 0 := by
  have hstop := h.stop_eq hs
  have hbyte : ∀ i < 4, (ofSlots records).byteAt (s.offset + 1 + i) = 0 := fun i hi => by
    rw [byteAt, getElem?_ofSlots hrecords h.toTiled hs (by omega) (by omega)]
    rfl
  unfold intAt doubleAt
  rw [← Nat.add_zero (s.offset + 1), hbyte 0 (by decide), Nat.add_zero, hbyte 1 (by decide),
    hbyte 2 (by decide), hbyte 3 (by decide)]
  rfl

end

end AreaSlots

/-! ## Filling the arguments -/

/-- An integer for a slot on both sides: where the machine stores it, and where C writes it. -/
structure AreaSlots.SameArgument (a : AreaSlots) (cf : CFrame) (item : Nat × Value) (arg : CArgument) :
    Prop where
  place : ∃ s ∈ a.places, s.offset = item.1 ∧ arg.offset.toNat = item.1 + 1
  type : arg.type = .i4
  value : arg.value.eval cf = .ok (.int item.2.toInt)

section
variable {a : AreaSlots} (h : a.Integers) {cf : CFrame}
include h

theorem AreaSlots.sameArguments (hsmall : a.size < 65535) {layout : LayoutTable} :
    ∀ {slots : List Slot} {args : List COperand} {ys : List Int32},
    (∀ slot ∈ slots, ⟨slot.offset.toNat, slot.tag⟩ ∈ a.places) →
    List.Forall₂ (COperand.Means m layout cf) args ys →
    List.Forall₂ (a.SameArgument cf) ((slots.map (·.offset.toNat)).zip (ys.map .i4))
      (CEmitter.filled (slots.map fun slot => (slot.offset + 1, .i4)) args)
  | [], _, _, _, _ => .nil
  | slot :: slots, [], [], _, .nil => .nil
  | slot :: slots, o :: args, y :: ys, hslots, .cons ho hargs => by
    have hmem := hslots slot mem_cons_self
    obtain ⟨i, hi⟩ := mem_iff_getElem?.1 hmem
    refine .cons ⟨⟨_, hmem, rfl, h.toNat_payload hsmall hi⟩, rfl, ho.value⟩ ?_
    exact sameArguments hsmall (fun s hs => hslots s (mem_cons_of_mem _ hs)) hargs

/-- **Both sides fill an argument area** with the same payloads. -/
theorem AreaSlots.fill_agrees (hrecords : records.map (·.tag) = a.places.map (·.tag.id))
    (index : Nat) (hsize : a.size ≤ size) {values : List Value} {args : List CArgument}
    (hargs : List.Forall₂ (a.SameArgument cf) ((a.places.map (·.offset)).zip values) args) :
    ∃ area carea, Machine.fillArguments index records values = .ok area ∧
      CFunction.fill cf size args = .ok carea ∧ a.Intact area ∧ a.SamePayloads area carea := by
  unfold Machine.fillArguments fill
  rw [slotOffsets_eq hrecords h.toTiled]
  refine except_foldlM_forall₂ (R := fun area carea => a.Intact area ∧ a.SamePayloads area carea) ?_
    hargs ⟨intact_ofSlots hrecords h.toTiled, samePayloads_new hrecords h.toTiled hsize⟩
  rintro ⟨offset, v⟩ arg area carea ⟨⟨s, hs, rfl, hoffset⟩, htype, hvalue⟩ ⟨hintact, hsame⟩
  have hroom := h.payload_le hintact hs
  have hroom' := hsame.payload_le h hs hroom
  refine ⟨area.putInt (s.offset + 1) v.toInt, carea.putInt (s.offset + 1) v.toInt, ?_, ?_,
    h.intact_putInt hintact hs _, hsame.putInt h hs hroom _⟩
  · dsimp only
    rw [h.store hintact hs]
  · refine except_bind_ok.2 ⟨_, hvalue, except_bind_ok.2 ⟨.int v.toInt, ?_, ?_⟩⟩
    · rw [htype]
      exact CNumber.cast_int_i4 _
    · have hbytes : arg.type.bytes (.int v.toInt) = Word.bytes32 v.toInt.toUInt32 := by
        rw [htype]
        rfl
      rw [hbytes, hoffset, if_pos]
      · unfold putInt
        rfl
      · exact hroom'

end

/-! ## Entering a method -/

/-- **A method starts with the same variables on both sides**: the local ones are zero. -/
theorem Machine.MethodAt.represents_enter {m : Machine} {c : BuildContext} {r : Registry}
    {t : TypeTables} {index : Nat} {v : MethodView} (h : m.MethodAt c r t index v)
    (hm : v.entry.Integers t.layout)
    (hlocals : g.locals = CFunction.localDeclarations v.entry) {statics : SlotArea}
    (hargs : v.entry.args.areaSlots.Intact args) (hstatics : t.layout.staticSlots.Intact statics)
    (hsameArgs : v.entry.args.areaSlots.SamePayloads args cargs)
    (hsameStatics : t.layout.staticSlots.SamePayloads statics cstatics) :
    v.entry.Represents t.layout (Frame.enter index v.method args) statics (g.enter cargs cstatics) where
  intactArgs := hargs
  intactLocals := intact_ofSlots (tags_of_records h.record.locals) hm.locals.toTiled
  intactStatics := hstatics
  sameArgs := hsameArgs
  sameStatics := hsameStatics
  vars n slot hslot := by
    have hzero := intAt_ofSlots (tags_of_records h.record.locals) hm.locals
      (mem_of_getElem? (SlotList.getElem?_places hslot))
    have hlt : n.toNat < v.entry.locals.slots.size := (Array.getElem?_eq_some_iff.1 hslot).1
    have hvar : (g.enter cargs cstatics).vars.lookup (.localVar n) = some (.int 0) := by
      rw [enter, hlocals, localDeclarations_eq hm.locals, map_map]
      exact lookup_const (CNumber.int 0) ⟨n.toNat, mem_range.2 hlt, by simp⟩
    rw [show (Frame.enter index v.method args).locals = ofSlots v.method.locals from rfl, hzero,
      CFrame.get, hvar]

/-! ## Statements of calls -/

/-- What a C function leaves behind is what the machine leaves behind when the method returns. -/
structure CResult.Matches (r : CResult) (m : CompiledMethod) (layout : LayoutTable)
    (value : Option Int32) (args statics : SlotArea) : Prop where
  sameValue : r.value = value.map .int
  declared : value = none ↔ m.ret = none
  sameArgs : m.args.areaSlots.SamePayloads args r.args
  intact : layout.staticSlots.Intact statics
  sameStatics : layout.staticSlots.SamePayloads statics r.statics

namespace CEmitter

section
variable {layout : LayoutTable} {e : CEmitter} {cf : CFrame} {f : Frame} {statics : SlotArea}
  {xs : List Int32} (h : Mirrors m layout f statics xs e cf)
include h

theorem Mirrors.withStatics
    (hunread : ∀ (d : Nat) o, e.stack[d]? = some o → ∀ key, .static key ∉ o.reads)
    (hintact : layout.staticSlots.Intact statics')
    (hsame : layout.staticSlots.SamePayloads statics' cstatics) :
    Mirrors m layout f statics' xs e { cf with statics := cstatics } := by
  refine ⟨h.holds.of_means fun d o x ho hx => hx.of_get fun v hv place hnames => ?_, ?_⟩
  · cases hnames with
    | temporary depth type => rfl
    | ofVariable located =>
      cases located with
      | argument _ | localVar _ => rfl
      | static _ => exact absurd hv (hunread d o ho _)
  · exact { h.represents with intactStatics := hintact, sameStatics := hsame, vars := h.represents.vars }

theorem Mirrors.putResult {n : Nat}
    (hunread : ∀ (d : Nat) o, e.stack[d]? = some o → .temporary n .i4 ∉ o.reads) (x : Int32) :
    Mirrors m layout f statics (xs ++ [x]) (e.push (COperand.temporary n .i4))
      (cf.put (.temporary n .i4) x) := by
  have hput := CFrame.get_put (cf.fits_temporary n) x
  refine ⟨.push (h.holds.of_means fun d o y ho hy => hy.put_temporary (hunread d o ho) x)
    (COperand.means_temporary m layout hput), ?_⟩
  refine { h.represents with vars := fun i slot hslot => ?_ }
  rw [CFrame.get_put_temporary_ne (by simp)]
  exact h.represents.vars i slot hslot

end

section
variable {s : CScope} {layout : LayoutTable} {index : Nat} {site : Site} {op : Op} {last : Bool}
  {e e' : CEmitter} {cf : CFrame} {f : Frame} {statics : SlotArea} {xs ys zs : List Int32} {u : CUnit}
  {fn : CFunction} {k : Nat} {target : CompiledMethod}

theorem within_of_called {ret : Option CType} (hw : fn.Within (e.called k size ret slots operands)) :
    fn.Within e := by
  cases ret with
  | none => exact hw.of_write
  | some type =>
    have hused : fn.Within (e.useTemporary e.stack.size type.stackClass) :=
      CFunction.Within.of_write ⟨hw.body, hw.temporaries⟩
    exact hused.of_before (writes_useTemporary (fun _ => True) e _ _).before

/-- **A call that was written** goes on with what the function that is called has come to. -/
theorem called_runs {result : CResult} {value : Option Int32}
    (hm : Mirrors m layout f statics xs e cf)
    (hunread : ∀ (d : Nat) o, e.stack[d]? = some o → ∀ key, .static key ∉ o.reads)
    (hfree : target.ret ≠ none → ∀ (d : Nat) o, e.stack[d]? = some o →
      .temporary e.stack.size .i4 ∉ o.reads)
    (hw : fn.Within (e.called k size (target.ret.map fun _ => .i4) slots operands))
    (hfill : CFunction.fill cf size (filled slots operands) = .ok cargs) (hg : u.function? k = some g)
    (hfinishes : u.Finishes g (g.enter cargs cf.statics) g.body result)
    (hmatches : result.Matches target layout value args statics') :
    ∃ cf', u.Goes fn cf (fn.after e) cf'
        (fn.after (e.called k size (target.ret.map fun _ => .i4) slots operands)) ∧
      Mirrors m layout f statics' (xs ++ value.toList)
        (e.called k size (target.ret.map fun _ => .i4) slots operands) cf' := by
  have hm' := hm.withStatics hunread hmatches.intact hmatches.sameStatics
  cases hret : target.ret with
  | none =>
    cases hmatches.declared.2 hret
    rw [hret] at hw
    refine ⟨{ cf with statics := result.statics }, ?_, ?_⟩
    · rw [show fn.after e = _ from after_write hw]
      exact CUnit.goes_call hfill hg hfinishes
    · rw [Option.toList_none, append_nil]
      exact ⟨hm'.holds.of_stack rfl, hm'.represents⟩
  | some storage =>
    obtain ⟨x, rfl⟩ : ∃ x, value = some x := Option.ne_none_iff_exists'.1 fun hnone => by
      cases hret.symm.trans (hmatches.declared.1 hnone)
    rw [hret] at hw
    have hdeclared := hw.temporaries _ (mem_useTemporary e e.stack.size .i4)
    have hput := hm'.putResult (hfree (by rw [hret]; exact Option.some_ne_none _)) x
    refine ⟨_, ?_, hput.holds.of_stack ?_, hput.represents⟩
    · have hafter : fn.after e = _ := after_eq hw (by
        show (Array.push _ _).toList = _
        rw [Array.toList_push, useTemporary_body])
      rw [hafter]
      exact CUnit.goes_call_result hfill hg hfinishes hmatches.sameValue
        (assign_ok (typeOf?_temporary hdeclared) (CFrame.fits_temporary _ _) x)
    · exact congrArg (Array.push · _) (useTemporary_stack e e.stack.size .i4)

/-- **An instruction that calls a method.** The function that is called starts on an area with the
integers of the machine. If it comes to what the method leaves behind, so does the call. -/
theorem call_runs (hsite : s.method.sites[index]? = some site) (hv : Valid e)
    (hstep : e.step s index op last = .ok e') (hw : fn.Within e')
    (hm : Mirrors s.method layout f statics xs e cf) (hcallee : s.methods[k]? = some target)
    (htarget : target.Integers layout)
    (hresult : ∀ storage, target.ret = some storage → storage.tag = .i32)
    (hstatus : target.cStatus.reason? = none)
    (hrecords : records.map (·.tag) = target.args.areaSlots.places.map (·.tag.id)) {area : SlotArea}
    (hfill : Machine.fillArguments k records (ys.map .i4) = .ok area)
    (hacts : Op.Acts s.methods layout s.method site f statics op xs (.call k ys zs)) :
    ∃ cargs cstatics, target.args.areaSlots.Intact area ∧
      target.args.areaSlots.SamePayloads area cargs ∧
      layout.staticSlots.SamePayloads statics cstatics ∧
      ∀ g result value args statics', u.function? k = some g →
        u.Finishes g (g.enter cargs cstatics) g.body result →
        result.Matches target layout value args statics' →
        ∃ cf', u.Goes fn cf (fn.after e) cf' (fn.after e') ∧
          Mirrors s.method layout f statics' (zs ++ value.toList) e' cf' := by
  cases hacts with
  | @call isVirtual ref _ pops storage target' _ _ called callee arity =>
    cases hcallee.symm.trans callee
    have htags : ∀ slot ∈ target.args.slots.toList, slot.tag = .i32 := fun slot hslot =>
      htarget.args.tags _ (mem_map.2 ⟨slot, hslot, rfl⟩)
    have hcalls : Calls s index (.call isVirtual ref) k target (target.ret.map fun _ => .i4)
        (target.args.slots.toList.map fun slot => (slot.offset + 1, .i4)) :=
      ⟨⟨_, _, rfl⟩, ⟨pops, storage, called ▸ hsite⟩, hcallee, hstatus, resultType_int32 hresult,
        argumentSlots_int32 htags⟩
    obtain ⟨hsize, hholds, hparts⟩ := hm.holds.split
    have hlength : e.stack.size = zs.length +
        (target.args.slots.toList.map fun slot => (slot.offset + 1, CType.i4)).length := by
      simp [hsize, arity]
    obtain ⟨e₁, hsettles, hunread, hfree, hcall⟩ := hcalls.step hv hlength last
    cases hcall.symm.trans hstep
    have hn : zs.length ≤ e.stack.size := by omega
    have hlow := hv.lower hn
    have hsettled : e₁.stack.size = zs.length :=
      (hsettles.settling hlow).size.trans (size_lower e hn)
    obtain ⟨cf₁, hgoes, hm₁, hparts₁⟩ := Mirrors.spills (u := u) ⟨hholds, hm.represents⟩ hparts
      (within_of_called hw) (hsettles.spills hlow (hv.safe_taken hn))
    have hplaces : ∀ slot ∈ target.args.slots.toList,
        ⟨slot.offset.toNat, slot.tag⟩ ∈ target.args.areaSlots.places :=
      fun slot hslot => mem_map.2 ⟨slot, hslot, rfl⟩
    have hargs := sameArguments htarget.args htarget.argsSmall hplaces hparts₁
    obtain ⟨area', cargs, hmachine, hc, hintact, hsame⟩ := fill_agrees htarget.args hrecords k
      (Nat.le_max_left _ 1) (by rw [SlotList.areaSlots, map_map]; exact hargs)
    cases hfill.symm.trans hmachine
    refine ⟨cargs, cf₁.statics, hintact, hsame, hm₁.represents.sameStatics, ?_⟩
    intro g result value args statics' hg hfinishes hmatches
    have hfree' : target.ret ≠ none → ∀ (d : Nat) o, e₁.stack[d]? = some o →
        .temporary e₁.stack.size .i4 ∉ o.reads := by
      intro hret
      obtain ⟨storage, hstorage⟩ := Option.ne_none_iff_exists'.1 hret
      rw [hsettled]
      exact hfree .i4 (by rw [hstorage]; rfl)
    obtain ⟨cf', hgoes', hm'⟩ := called_runs hm₁ hunread hfree' hw hc hg hfinishes hmatches
    exact ⟨cf', hgoes.trans hgoes', hm'⟩

end

end CEmitter

end DeviceCode
