import DeviceCode.Proofs.Integers.Operations
import DeviceCode.Proofs.Machine.Slots

/-!
# The machine on integers

`Frame.holding f pc xs` is a frame whose operands are integers, and `Machine.Follows` says what the
machine goes on with after an action of such a frame. Main statement: `MethodAt.step_acts`, a step on an
instruction of the core does what `Op.Acts` says, unless it fails.
-/

namespace DeviceCode

open Frame

open List

variable {maxStack : UInt16} {x : Int32} {area : Area}

/-! ## Frames with integers -/

namespace Frame

/-- The frame at a position, with those integers on its stack. -/
def holding (f : Frame) (pc : Nat) (xs : List Int32) : Frame :=
  { f with pc, stack := (xs.map Value.i4).toArray }

section
variable {f f' : Frame} {pc slot : Nat} {xs : List Int32} {place : CodeAddress} {v : Value}

theorem push_holding (h : (f.holding pc xs).push maxStack place (.i4 x) = .ok f') :
    f' = f.holding pc (xs ++ [x]) := by
  unfold push at h
  split at h
  · cases h
  · cases h
    simp [holding]

theorem pop_holding (h : (f.holding pc xs).pop place = .ok (v, f')) :
    ∃ ys x, xs = ys ++ [x] ∧ v = .i4 x ∧ f' = f.holding pc ys := by
  unfold pop at h
  rcases eq_nil_or_concat xs with rfl | ⟨ys, x, hxs⟩
  · cases h
  · rw [concat_eq_append] at hxs
    subst hxs
    refine ⟨ys, x, rfl, ?_⟩
    simp only [holding, map_append, map_cons, map_nil, back?_toArray,
      getLast?_concat, pop_toArray, dropLast_concat] at h
    cases h
    exact ⟨rfl, rfl⟩

theorem pop₂_holding {a b : Value} (h : (f.holding pc xs).pop₂ place = .ok (a, b, f')) :
    ∃ ys x y, xs = ys ++ [x, y] ∧ a = .i4 x ∧ b = .i4 y ∧ f' = f.holding pc ys := by
  obtain ⟨⟨b', f₁⟩, hb, h⟩ := except_bind_ok.1 h
  obtain ⟨⟨a', f₂⟩, ha, h⟩ := except_bind_ok.1 h
  obtain ⟨zs, y, rfl, rfl, rfl⟩ := pop_holding hb
  obtain ⟨ys, x, rfl, rfl, rfl⟩ := pop_holding ha
  cases except_pure_ok.1 h
  exact ⟨ys, x, y, by simp, rfl, rfl, rfl⟩

theorem popMany_holding {n : Nat} {vs : List Value}
    (h : (f.holding pc xs).popMany place n = .ok (vs, f')) :
    ∃ zs ys, xs = zs ++ ys ∧ ys.length = n ∧ vs = ys.map .i4 ∧ f' = f.holding pc zs := by
  unfold popMany at h
  split at h
  · cases h
  · rename_i hn
    have hsize : n ≤ xs.length := by simpa [holding] using hn
    cases h
    refine ⟨xs.take (xs.length - n), xs.drop (xs.length - n), by simp, by simp; omega, ?_, ?_⟩
    · simp only [holding, extract_toArray, size_toArray, length_map,
        extract_eq_take_drop, map_drop]
      exact take_of_length_le (by simp)
    · simp [holding, map_take]

theorem area_holding (f : Frame) (pc : Nat) (xs : List Int32) (area : Area) :
    (f.holding pc xs).area area = f.area area := by
  cases area <;> rfl

theorem load_holding (h : (f.area area).load slot = some v) :
    (f.holding pc xs).load area slot = .ok v := by
  rw [load_eq, area_holding, h]
  rfl

theorem store_holding {payload : Nat}
    (h : (f.area area).store slot (.i4 x) = some ((f.area area).putInt payload x)) :
    (f.holding pc xs).store area slot (.i4 x) =
      .ok (((Home.frame area payload).putFrame f x).holding pc xs) := by
  rw [store_eq, area_holding, h]
  cases area <;> rfl

end

end Frame

/-! ## Actions -/

namespace Machine

/-- What the machine goes on with after an action of the frame. The instruction stands at `site`, and
the code behind it at `next`. -/
inductive Follows (m : Machine) (branchWord : Nat → UInt16) (site next : Nat) (f : Frame)
    (callers : List Caller) (statics : SlotArea) : Action → Progress → Prop
  | next (xs : List Int32) : Follows m branchWord site next f callers statics (.next xs)
      (.running ⟨f.holding next xs, callers, statics⟩)
  | store (home : Home) (x : Int32) (xs : List Int32) :
    Follows m branchWord site next f callers statics (.store home x xs)
      (.running ⟨(home.putFrame f x).holding next xs, callers, home.putStatics statics x⟩)
  | passed (xs : List Int32) : Follows m branchWord site next f callers statics (.branch none xs)
      (.running ⟨f.holding next xs, callers, statics⟩)
  | taken (target : Nat) (xs : List Int32) :
    Follows m branchWord site next f callers statics (.branch (some target) xs)
      (.running ⟨f.holding (branchWord target).toNat xs, callers, statics⟩)
  | call {k : Nat} {method : LoadedMethod} {area : SlotArea} {ys : List Int32} (xs : List Int32)
    (loaded : m.image.methods[k]? = some method)
    (filled : fillArguments k method.args (ys.map .i4) = .ok area) :
    Follows m branchWord site next f callers statics (.call k ys xs)
      (m.invoke k area (⟨f.holding next xs, site⟩ :: callers) statics)
  | ret (value : Option Int32) : Follows m branchWord site next f callers statics (.ret value)
      (m.returnTo callers (value.map .i4) f.args statics)

/-- What the machine goes on with after an instruction. -/
def proceed (m : Machine) (site : Nat) (callers : List Caller) (statics : SlotArea) : Effect → Progress
  | .next f statics => .running ⟨f, callers, statics⟩
  | .call f callee args => m.invoke callee args (⟨f, site⟩ :: callers) statics
  | .ret value args => m.returnTo callers value args statics

theorem step_of_decoded {m : Machine} {s : MachineState} {method : LoadedMethod} {mop : MachineOp}
    {next : Nat} (hloaded : m.image.methods[s.frame.method]? = some method)
    (hdecode : MachineOp.decode? method.code s.frame.pc = some (mop, next))
    (hok : ∀ e area, m.step s ≠ .failed e area) :
    ∃ effect, m.perform method ⟨s.frame.method, s.frame.pc⟩ { s.frame with pc := next } s.statics mop =
        .ok effect ∧
      m.step s = m.proceed s.frame.pc s.callers s.statics effect := by
  unfold step at hok ⊢
  simp only [hloaded, hdecode] at hok ⊢
  cases hperform : m.perform method ⟨s.frame.method, s.frame.pc⟩ { s.frame with pc := next } s.statics
    mop with
  | error e =>
    rw [hperform] at hok
    exact absurd rfl (hok e s.statics)
  | ok effect =>
    refine ⟨effect, rfl, ?_⟩
    cases effect <;> rfl

/-! ## Instructions -/

/-- The effect of an instruction is that of an action of its operation. -/
def ActsAs (m : Machine) (methods : Array CompiledMethod) (layout : LayoutTable)
    (entry : CompiledMethod) (s : Site) (branchWord : Nat → UInt16) (site next : Nat) (f : Frame)
    (callers : List Caller) (statics : SlotArea) (op : Op) (xs : List Int32) (effect : Effect) : Prop :=
  ∃ action, Op.Acts methods layout entry s f statics op xs action ∧
    m.Follows branchWord site next f callers statics action (m.proceed site callers statics effect)

section
variable {m : Machine} {layout : LayoutTable} {methods : Array CompiledMethod} {entry : CompiledMethod}
  {method : LoadedMethod} {op : Op} {s : Site} {branchWord : Nat → UInt16} {site next : Nat}
  {f : Frame} {callers : List Caller} {statics : SlotArea} {xs : List Int32} {place : CodeAddress}
  {effect : Effect}

theorem push_follows (h : ((f.holding next xs).push maxStack place (.i4 x) >>= fun f =>
      pure (Effect.next f statics)) = .ok effect) :
    m.Follows branchWord site next f callers statics (.next (xs ++ [x]))
      (m.proceed site callers statics effect) := by
  obtain ⟨f', hpush, h⟩ := except_bind_ok.1 h
  cases except_pure_ok.1 h
  rw [push_holding hpush]
  exact .next _

theorem plain_follows {mop : MachineOp} (hop : op.isInt32 = true)
    (hret : method.retTag = voidTag ↔ entry.ret = none)
    (hplain : MachineOp.ofPlain? branchWord op = some mop)
    (h : m.perform method place (f.holding next xs) statics mop = .ok effect) :
    m.ActsAs methods layout entry s branchWord site next f callers statics op xs effect := by
  cases op <;> cases hplain
  case nop =>
    cases except_pure_ok.1 h
    exact ⟨_, .nop, .next _⟩
  case const c =>
    cases c <;> cases hop
    exact ⟨_, .const, push_follows h⟩
  case dup =>
    unfold perform at h
    simp only at h
    split at h
    · cases h
    · rename_i v hv
      rcases eq_nil_or_concat xs with rfl | ⟨ys, x, hxs⟩
      · cases hv
      · rw [concat_eq_append] at hxs
        subst hxs
        obtain rfl : v = .i4 x := by simpa [holding] using hv.symm
        exact ⟨_, .dup, push_follows h⟩
  case pop =>
    obtain ⟨⟨v, f'⟩, hpop, h⟩ := except_bind_ok.1 h
    obtain ⟨ys, x, rfl, rfl, rfl⟩ := pop_holding hpop
    cases except_pure_ok.1 h
    exact ⟨_, .pop, .next _⟩
  case ret =>
    unfold perform at h
    simp only at h
    split at h
    · rename_i hvoid
      cases except_pure_ok.1 h
      exact ⟨_, .returnNone (hret.1 hvoid), .ret none⟩
    · rename_i hvalue
      obtain ⟨⟨v, f'⟩, hpop, h⟩ := except_bind_ok.1 h
      obtain ⟨ys, x, rfl, rfl, rfl⟩ := pop_holding hpop
      cases except_pure_ok.1 h
      exact ⟨_, .returnValue fun hnone => hvalue (hret.2 hnone), .ret (some x)⟩
  case jump target =>
    cases except_pure_ok.1 h
    have hacts : Op.Acts methods layout entry s f statics (.jump target) (xs ++ []) _ :=
      .branch [] rfl
    rw [append_nil] at hacts
    exact ⟨_, hacts, .taken _ _⟩
  case jumpIf sense target =>
    obtain ⟨⟨v, f'⟩, hpop, h⟩ := except_bind_ok.1 h
    obtain ⟨ys, x, rfl, rfl, rfl⟩ := pop_holding hpop
    cases except_pure_ok.1 h
    refine ⟨_, .branch [x] rfl, ?_⟩
    show m.Follows _ _ _ _ _ _ _ (.running ⟨if (x != 0) = sense then _ else _, _, _⟩)
    by_cases htaken : (x != 0) = sense
    · rw [if_pos htaken, if_pos htaken]
      exact .taken _ _
    · rw [if_neg htaken, if_neg htaken]
      exact .passed _
  case jumpCmp cmp isUnsigned target =>
    obtain ⟨⟨a, b, f'⟩, hpop, h⟩ := except_bind_ok.1 h
    obtain ⟨ys, x, y, rfl, rfl, rfl, rfl⟩ := pop₂_holding hpop
    obtain ⟨taken, htest, h⟩ := except_bind_ok.1 h
    rw [Comparison.branchTest_i4] at htest
    cases htest
    cases except_pure_ok.1 h
    refine ⟨_, .branch [x, y] rfl, ?_⟩
    by_cases htaken : cmp.holds isUnsigned x y = true
    · rw [if_pos htaken, if_pos htaken]
      exact .taken _ _
    · rw [if_neg htaken, if_neg htaken]
      exact .passed _
  case binary b =>
    obtain ⟨⟨a, b, f'⟩, hpop, h⟩ := except_bind_ok.1 h
    obtain ⟨ys, x, y, rfl, rfl, rfl, rfl⟩ := pop₂_holding hpop
    obtain ⟨v, hv, h⟩ := except_bind_ok.1 h
    rw [operand, except_mapError_ok, Value.binary, BinaryOp.ofByte?_byte, except_map_ok] at hv
    obtain ⟨z, hz, rfl⟩ := hv
    exact ⟨_, .compute [x, y] (by simp [Op.value?, hz, Except.toOption]), push_follows h⟩
  case neg | not =>
    obtain ⟨⟨v, f'⟩, hpop, h⟩ := except_bind_ok.1 h
    obtain ⟨ys, x, rfl, rfl, rfl⟩ := pop_holding hpop
    exact ⟨_, .compute [x] rfl, push_follows h⟩
  case compare relation isUnsigned =>
    obtain ⟨⟨a, b, f'⟩, hpop, h⟩ := except_bind_ok.1 h
    obtain ⟨ys, x, y, rfl, rfl, rfl, rfl⟩ := pop₂_holding hpop
    obtain ⟨holds, htest, h⟩ := except_bind_ok.1 h
    rw [Relation.valueTest_i4] at htest
    cases htest
    exact ⟨_, .compute [x, y] rfl, push_follows h⟩
  all_goals cases hop

theorem switch_follows {table : Nat} {targets : List UInt64}
    (htable : ∀ (k : Nat) t, targets[k]? = some t →
      MachineOp.wordAt? method.code (table + 2 * k) = some (branchWord t.toNat))
    (h : m.perform method place (f.holding next xs) statics (.switch table targets.length) =
      .ok effect) :
    m.ActsAs methods layout entry s branchWord site next f callers statics (.switch targets) xs effect := by
  obtain ⟨⟨v, f'⟩, hpop, h⟩ := except_bind_ok.1 h
  obtain ⟨ys, x, rfl, rfl, rfl⟩ := pop_holding hpop
  cases except_pure_ok.1 h
  refine ⟨_, .branch [x] rfl, ?_⟩
  cases htarget : targets[x.toUInt32.toNat]? with
  | none =>
    have hpc : switchTarget method.code table targets.length next x = next :=
      if_neg (Nat.not_lt.2 (getElem?_eq_none_iff.1 htarget))
    show m.Follows _ _ _ _ _ _ _ (.running ⟨f.holding (switchTarget _ _ _ next x) ys, _, _⟩)
    rw [hpc]
    exact .passed _
  | some t =>
    have hlt := (List.getElem?_eq_some_iff.1 htarget).1
    have hpc : switchTarget method.code table targets.length next x = (branchWord t.toNat).toNat := by
      unfold switchTarget
      rw [if_pos hlt, htable _ t htarget]
      rfl
    show m.Follows _ _ _ _ _ _ _ (.running ⟨f.holding (switchTarget _ _ _ next x) ys, _, _⟩)
    rw [hpc]
    exact .taken _ _

theorem call_follows {k pops : Nat} {storage : Option Storage} {ref : MethodRef} {isVirtual : Bool}
    {target : CompiledMethod} (hsite : s = .call (.user k) pops storage)
    (hcallee : methods[k]? = some target)
    (harity : ∀ q, m.image.methods[k]? = some q → q.args.length = target.args.slots.size)
    (h : m.perform method place (f.holding next xs) statics (.call k) = .ok effect) :
    m.ActsAs methods layout entry s branchWord site next f callers statics (.call isVirtual ref) xs
      effect := by
  unfold perform at h
  simp only at h
  split at h
  · cases h
  · rename_i q hq
    obtain ⟨⟨vs, f'⟩, hpop, h⟩ := except_bind_ok.1 h
    obtain ⟨zs, ys, rfl, hlength, rfl, rfl⟩ := popMany_holding hpop
    obtain ⟨area, harea, h⟩ := except_bind_ok.1 h
    cases except_pure_ok.1 h
    exact ⟨_, .call hsite hcallee (hlength.trans (harity q hq)), .call zs hq harea⟩

/-! ## Variables -/

theorem integers_area {m : CompiledMethod} {layout : LayoutTable} (h : m.Integers layout)
    (area : Area) : (m.areaSlots area).Integers := by
  cases area with
  | arguments => exact h.args
  | locals => exact h.locals

theorem slot_located (layout : LayoutTable) (s : Site) {l : Lowering} (hargs : l.args = entry.args)
    (hlocals : l.locals = entry.locals) {n : UInt16} {slot : Slot} (h : l.slot area n = .ok slot) :
    ∃ v place, (∀ access, (Op.slot area access n).accessed? s = some (access, v)) ∧
      entry.Locates layout v place (.frame area (slot.offset.toNat + 1)) ∧
      ∃ p ∈ (entry.areaSlots area).places, p.offset = slot.offset.toNat := by
  have hmem := Lowering.mem_areaSlots hargs hlocals h
  obtain ⟨rfl, hs⟩ | ⟨rfl, hs⟩ := Lowering.slot_ok h
  · exact ⟨_, _, fun _ => rfl, .argument (hargs ▸ hs), hmem⟩
  · exact ⟨_, _, fun _ => rfl, .localVar (hlocals ▸ hs), hmem⟩

section
variable (hm : entry.Integers layout)
  (hintact : ∀ area, (entry.areaSlots area).Intact (f.area area)) {l : Lowering}
  (hargs : l.args = entry.args) (hlocals : l.locals = entry.locals) {n : UInt16} {slot : Slot}
  (hslot : l.slot area n = .ok slot)
include hm hintact hargs hlocals hslot

theorem load_follows
    (h : m.perform method place (f.holding next xs) statics (.load area slot.offset.toNat) =
      .ok effect) :
    m.ActsAs methods layout entry s branchWord site next f callers statics (.slot area .load n) xs
      effect := by
  obtain ⟨v, cplace, haccessed, hlocated, p, hp, hoffset⟩ :=
    slot_located layout s hargs hlocals hslot
  have hload := (integers_area hm area).load (hintact area) hp
  rw [hoffset] at hload
  obtain ⟨value, hvalue, h⟩ := except_bind_ok.1 h
  cases (load_holding hload).symm.trans hvalue
  exact ⟨_, .load (haccessed .load) hlocated, push_follows h⟩

theorem store_follows
    (h : m.perform method place (f.holding next xs) statics (.store area slot.offset.toNat) =
      .ok effect) :
    m.ActsAs methods layout entry s branchWord site next f callers statics (.slot area .store n) xs
      effect := by
  obtain ⟨v, cplace, haccessed, hlocated, p, hp, hoffset⟩ :=
    slot_located layout s hargs hlocals hslot
  obtain ⟨⟨value, f'⟩, hpop, h⟩ := except_bind_ok.1 h
  obtain ⟨ys, x, rfl, rfl, rfl⟩ := pop_holding hpop
  have hstore := (integers_area hm area).store (hintact area) hp (.i4 x)
  rw [hoffset] at hstore
  obtain ⟨f', hf', h⟩ := except_bind_ok.1 h
  cases (store_holding hstore).symm.trans hf'
  cases except_pure_ok.1 h
  exact ⟨_, .store (haccessed .store) hlocated, .store _ _ _⟩

end

section
variable (hm : entry.Integers layout) (hstatics : layout.staticSlots.Intact statics) {key : String}
  {field : StaticField} (hfield : layout.staticField? key = some field) {ref : FieldRef}
  {inStaticRegion host : Bool} {tag : Tag}
include hm hstatics hfield

theorem loadStatic_follows
    (h : m.perform method place (f.holding next xs) statics (.loadStatic field.offset.toNat) =
      .ok effect) :
    m.ActsAs methods layout entry (.field key inStaticRegion host tag) branchWord site next f callers
      statics (.field true .load ref) xs effect := by
  obtain ⟨i, -, hi⟩ := LayoutTable.getElem?_places hfield
  have hload := hm.statics.load hstatics (mem_of_getElem? hi)
  unfold perform at h
  simp only at h hload
  rw [hload] at h
  exact ⟨_, .load rfl (.static hfield), push_follows h⟩

theorem storeStatic_follows
    (h : m.perform method place (f.holding next xs) statics (.storeStatic field.offset.toNat) =
      .ok effect) :
    m.ActsAs methods layout entry (.field key inStaticRegion host tag) branchWord site next f callers
      statics (.field true .store ref) xs effect := by
  obtain ⟨i, -, hi⟩ := LayoutTable.getElem?_places hfield
  obtain ⟨⟨value, f'⟩, hpop, h⟩ := except_bind_ok.1 h
  obtain ⟨ys, x, rfl, rfl, rfl⟩ := pop_holding hpop
  have hstore := hm.statics.store hstatics (mem_of_getElem? hi) (.i4 x)
  simp only at h hstore
  rw [hstore] at h
  cases except_pure_ok.1 h
  exact ⟨_, .store rfl (.static hfield), .store (.static _) _ _⟩

end

end

/-! ## Steps -/

section
variable {m : Machine} {c : BuildContext} {r : Registry} {t : TypeTables} {index : Nat}
  {v : MethodView} (h : m.MethodAt c r t index v) (hslots : m.RunsSlots c r t) {i pc : Nat}
  {instruction : Instruction} {o : LoweredOp} (hat : v.OperationAt i pc instruction o)
include h hslots hat

/-- **A step on an instruction of the core** does what the operation says, unless it fails. -/
theorem MethodAt.step_acts (hop : instruction.op.isInt32 = true) (hsite : o.site.isInt32 = true)
    (hm : v.entry.Integers t.layout) {f : Frame} (hf : f.method = index)
    (hintact : ∀ area, (v.entry.areaSlots area).Intact (f.area area)) {statics : SlotArea}
    (hstatics : t.layout.staticSlots.Intact statics) {callers : List Caller} {xs : List Int32}
    (hok : ∀ e area, m.step ⟨f.holding pc xs, callers, statics⟩ ≠ .failed e area) :
    ∃ action, Op.Acts r.methods t.layout v.entry o.site f statics instruction.op xs action ∧
      m.Follows v.branchWord pc (pc + Piece.totalSize o.pieces) f callers statics action
        (m.step ⟨f.holding pc xs, callers, statics⟩) := by
  subst hf
  have hret : v.method.retTag = voidTag ↔ v.entry.ret = none := by
    rw [h.record.retTag, resultTag_eq_voidTag]
  have acts : ∀ {mop : MachineOp} {next : Nat},
      MachineOp.decode? v.method.code pc = some (mop, next) →
      (∀ effect, m.perform v.method ⟨f.method, pc⟩ (f.holding next xs) statics mop = .ok effect →
        m.ActsAs r.methods t.layout v.entry o.site v.branchWord pc (pc + Piece.totalSize o.pieces) f
          callers statics instruction.op xs effect) →
      ∃ action, Op.Acts r.methods t.layout v.entry o.site f statics instruction.op xs action ∧
        m.Follows v.branchWord pc (pc + Piece.totalSize o.pieces) f callers statics action
          (m.step ⟨f.holding pc xs, callers, statics⟩) := by
    intro mop next hdecode hacts
    obtain ⟨effect, hperform, hstep⟩ := step_of_decoded h.loaded hdecode hok
    rw [hstep]
    exact hacts effect hperform
  have hdecoded := h.decoded hat
  obtain ⟨op, line⟩ := instruction
  generalize hs : o.site = site at hdecoded hsite acts
  cases hdecoded with
  | plain simple decoded => exact acts decoded fun _ => plain_follows hop hret simple
  | load slot decoded =>
    exact acts decoded fun _ => load_follows hm hintact h.installed.args h.installed.locals slot
  | store slot decoded =>
    exact acts decoded fun _ => store_follows hm hintact h.installed.args h.installed.locals slot
  | switch decoded table => exact acts decoded fun _ => switch_follows table
  | @loadStatic isStatic ref key host tag decoded =>
    obtain ⟨field, hfield, hoffset⟩ := h.static_located hat hslots hs
    cases isStatic with
    | false => cases hop
    | true => exact acts decoded fun _ hperform => loadStatic_follows hm hstatics hfield (hoffset ▸ hperform)
  | @storeStatic isStatic ref key host tag decoded =>
    obtain ⟨field, hfield, hoffset⟩ := h.static_located hat hslots hs
    cases isStatic with
    | false => cases hop
    | true => exact acts decoded fun _ hperform => storeStatic_follows hm hstatics hfield (hoffset ▸ hperform)
  | @call isVirtual ref k pops storage lead decoded =>
    cases isVirtual with
    | true => cases hop
    | false =>
      obtain ⟨w, hw⟩ := hslots.methodAt (h.callee_lt hat hs)
      refine acts decoded fun _ => call_follows rfl hw.entry fun q hq => ?_
      cases hw.loaded.symm.trans hq
      rw [← hw.record.args.length_eq, Array.length_toList]
  | callBuiltin lead decoded => cases hsite
  | refused decoded => exact acts decoded fun _ hperform => by cases hperform

end

end Machine

end DeviceCode
