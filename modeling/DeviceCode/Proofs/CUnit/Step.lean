import DeviceCode.Proofs.CUnit.Emitter

/-!
# Writing an instruction

`CEmitter.Emits` says what each instruction writes: how the symbolic stack changes and which statements
are added. `CEmitter.Typing` is about the types of the operands alone. Main statements: an instruction
can be written on a valid stack exactly if the types of the operands allow it (`typing_of_step`,
`Typing.step`), what it writes is what `Emits` says (`emits_of_step`), and the stack is valid again
(`Emits.continues`).
-/

namespace DeviceCode

open CEmitter

open COperand

open List

variable {o : COperand} {parts parts' : List COperand} {st : CStmt} {place : CPlace} {type : CType}
  {ts : List CType}

/-- The method returns a value that C can return. -/
def CScope.ReturnsValue (s : CScope) : Prop :=
  (∃ tag narrowed, s.method.ret = some (.scalar tag narrowed)) ∨ s.method.ret = some .reference

namespace CEmitter

/-! ## What instructions write -/

/-- The place that an instruction loads or stores, its type and its variable. -/
inductive Accesses (s : CScope) (index : Nat) (access : Access) : Op → CPlace → CType → CVar → Prop
  | argument {n : UInt16} {slot : Slot} {type : CType} (there : s.method.args.get? n = some slot)
    (scalar : CType.ofTag? slot.tag = some type) :
    Accesses s index access (.slot .arguments access n) (.argument type (slot.offset + 1)) type
      (.argument n)
  | localVar {n : UInt16} {slot : Slot} {type : CType} (there : s.method.locals.get? n = some slot)
    (scalar : CType.ofTag? slot.tag = some type) :
    Accesses s index access (.slot .locals access n) (.localVar n) type (.localVar n)
  | static {f : FieldRef} {key : String} {region : Bool} {tag : Tag} {type : CType} {offset : UInt16}
    (site : s.method.sites[index]? = some (.field key region false tag))
    (scalar : CType.ofTag? tag = some type) (there : staticOffset s key = .ok offset) :
    Accesses s index access (.field true access f) (.static type offset) type (.static key)

/-- The operand that an instruction loads by itself. -/
inductive Literal : Op → COperand → Prop
  | i4 (v : Int32) : Literal (.const (.i4 v)) (COperand.int v)
  | i8 (v : Int64) : Literal (.const (.i8 v)) (COperand.int v.toInt32)
  | r4 {bits : UInt32} {o : COperand} (value : COperand.float bits = .ok o) :
    Literal (.const (.r4 bits)) o
  | r8 {bits : UInt64} {o : COperand} (value : COperand.float (Binary32.ofBinary64 bits) = .ok o) :
    Literal (.const (.r8 bits)) o
  | null : Literal .null (COperand.literal .null .ptr)

/-- The operand that an instruction computes from others. -/
inductive Computes (s : CScope) (index : Nat) : Op → List COperand → COperand → Prop
  | binary {op : BinaryOp} {a b o : COperand} (value : COperand.binary op a b = .ok o) :
    Computes s index (.binary op) [a, b] o
  | compare {relation : Relation} {isUnsigned : Bool} {a b o : COperand}
    (value : COperand.compare relation.comparison isUnsigned a b = .ok o) :
    Computes s index (.compare relation isUnsigned) [a, b] o
  | neg {a o : COperand} (value : COperand.neg a = .ok o) : Computes s index .neg [a] o
  | not {a o : COperand} (value : COperand.complement a = .ok o) : Computes s index .not [a] o
  | conv {p : Primitive} {type : CType} {a o : COperand}
    (scalar : CType.ofTag? (Tag.ofPrimitive p) = some type) (value : a.convert type = .ok o) :
    Computes s index (.conv p) [a] o
  | convUnsigned {a o : COperand} (value : COperand.convertUnsigned a = .ok o) :
    Computes s index .convUnsignedToFloat [a] o
  | library {isVirtual : Bool} {m : MethodRef} {id : UInt16} {pops : Nat} {ret : Storage}
    {symbol : CSymbol} {native : CType} {parts : List COperand}
    (site : s.method.sites[index]? = some (.call (.builtin id) pops (some ret)))
    (known : s.builtins.symbol? id = some symbol) (scalar : CType.ofTag? symbol.ret = some native)
    (arity : parts.length = pops) (handles : parts.any (·.type = .ptr) = false) :
    Computes s index (.call isVirtual m) parts
      (COperand.compound (.call (.library symbol.symbol) (parts.map (·.expr))) native parts)

/-- The statement of an instruction that branches on its operands. -/
inductive Branches : Op → List COperand → CStmt → Prop
  | jump (t : UInt64) : Branches (.jump t) [] (.goto t.toNat)
  | jumpIf (sense : Bool) (t : UInt64) (o : COperand) : Branches (.jumpIf sense t) [o]
      (.gotoIf (if sense then o.expr else .unary .logicalNot (.paren o.expr)) t.toNat)
  | jumpCmp {cmp : Comparison} {isUnsigned : Bool} (t : UInt64) {a b o : COperand}
    (value : COperand.compare cmp isUnsigned a b = .ok o) :
    Branches (.jumpCmp cmp isUnsigned t) [a, b] (.gotoIf o.expr t.toNat)
  | switch (targets : List UInt64) (o : COperand) :
    Branches (.switch targets) [o] (.switch o.expr (targets.map (·.toNat)))

/-- The instruction calls a method that can be written in C. -/
structure Calls (s : CScope) (index : Nat) (op : Op) (k : Nat) (target : CompiledMethod)
    (ret : Option CType) (slots : List (UInt16 × CType)) : Prop where
  call : ∃ isVirtual m, op = .call isVirtual m
  site : ∃ pops storage, s.method.sites[index]? = some (.call (.user k) pops storage)
  callee : s.methods[k]? = some target
  status : target.cStatus.reason? = none
  result : resultType target = .ok ret
  slots : argumentSlots target = .ok slots

/-- The operands of a call in the slots of the method that is called. -/
def filled (slots : List (UInt16 × CType)) (args : List COperand) : List CArgument :=
  slots.zipWith (fun slot a => CArgument.mk slot.1 slot.2 a.expr) args

/-- The emitter after a call has been written; a result goes on top of the stack. -/
def called (e : CEmitter) (callee size : Nat) (ret : Option CType) (slots : List (UInt16 × CType))
    (args : List COperand) : CEmitter :=
  match ret with
  | none => e.write (.call none callee size (filled slots args))
  | some type =>
    ((e.useTemporary e.stack.size type.stackClass).write
      (.call (some (.temporary e.stack.size type.stackClass)) callee size (filled slots args))).push
        (COperand.temporary e.stack.size type.stackClass)

/-- What writing an instruction makes of the emitter. -/
inductive Emits (s : CScope) (index : Nat) (last : Bool) (e : CEmitter) : Op → CEmitter → Prop
  | nop : Emits s index last e .nop e
  | load {op : Op} {place : CPlace} {type : CType} {v : CVar}
    (access : Accesses s index .load op place type v) :
    Emits s index last e op (e.push (COperand.ofPlace place type v))
  | literal {op : Op} {o : COperand} (literal : Literal op o) : Emits s index last e op (e.push o)
  | dup {n : Nat} {o : COperand} {e' : CEmitter} (size : e.stack.size = n + 1)
    (settles : Settles e e') (top : e'.stack[n]? = some o) (safe : e'.Safe (n + 1) o) :
    Emits s index last e .dup (e'.push o)
  | pop {n : Nat} (size : e.stack.size = n + 1) : Emits s index last e .pop (e.lower n)
  | store {op : Op} {place : CPlace} {type : CType} {v : CVar}
    (access : Accesses s index .store op place type v) {n : Nat} {o : COperand} {e' : CEmitter}
    (size : e.stack.size = n + 1) (top : e.stack[n]? = some o) (settles : Settles (e.lower n) e')
    (unread : ∀ (d : Nat) o', e'.stack[d]? = some o' → v ∉ o'.reads) :
    Emits s index last e op (e'.write (.assign place o.expr))
  | compute {op : Op} {parts : List COperand} {o : COperand} {n : Nat}
    (computes : Computes s index op parts o) (size : e.stack.size = n + parts.length)
    (there : e.stack.toList.drop n = parts) : Emits s index last e op ((e.lower n).push o)
  | branch {op : Op} {parts : List COperand} {st : CStmt} {n : Nat} (branches : Branches op parts st)
    (size : e.stack.size = n + parts.length) (there : e.stack.toList.drop n = parts) :
    Emits s index last e op ((e.lower n).materializeAll.write st)
  | call {op : Op} {k : Nat} {target : CompiledMethod} {ret : Option CType}
    {slots : List (UInt16 × CType)} {n : Nat} {e' : CEmitter}
    (calls : Calls s index op k target ret slots) (size : e.stack.size = n + slots.length)
    (settles : Settles (e.lower n) e')
    (unread : ∀ (d : Nat) o, e'.stack[d]? = some o → ∀ key, .static key ∉ o.reads)
    (result : ∀ type ∈ ret, ∀ (d : Nat) o, e'.stack[d]? = some o →
      .temporary n type.stackClass ∉ o.reads) :
    Emits s index last e op
      (e'.called k (max target.args.size 1) ret slots (e.stack.toList.drop n))
  | returnNone (void : s.method.ret = none) :
    Emits s index last e .ret (if last then e else e.write (.ret none))
  | returnValue {n : Nat} {o : COperand} (result : s.ReturnsValue) (size : e.stack.size = n + 1)
    (top : e.stack[n]? = some o) : Emits s index last e .ret ((e.lower n).write (.ret (some o.expr)))

/-- The types of the operands before and after an instruction. -/
inductive Typing (s : CScope) (index : Nat) : Op → List CType → List CType → Prop
  | nop {ts : List CType} : Typing s index .nop ts ts
  | load {op : Op} {place : CPlace} {type : CType} {v : CVar} {ts : List CType}
    (access : Accesses s index .load op place type v) :
    Typing s index op ts (ts ++ [type.stackClass])
  | literal {op : Op} {o : COperand} {ts : List CType} (literal : Literal op o) :
    Typing s index op ts (ts ++ [o.type])
  | dup {t : CType} {ts : List CType} : Typing s index .dup (ts ++ [t]) (ts ++ [t, t])
  | pop {t : CType} {ts : List CType} : Typing s index .pop (ts ++ [t]) ts
  | store {op : Op} {place : CPlace} {type t : CType} {v : CVar} {ts : List CType}
    (access : Accesses s index .store op place type v) : Typing s index op (ts ++ [t]) ts
  | compute {op : Op} {parts : List COperand} {o : COperand} {ts : List CType}
    (computes : Computes s index op parts o) :
    Typing s index op (ts ++ parts.map (·.type)) (ts ++ [o.type])
  | branch {op : Op} {parts : List COperand} {st : CStmt} {ts : List CType}
    (branches : Branches op parts st) : Typing s index op (ts ++ parts.map (·.type)) ts
  | call {op : Op} {k : Nat} {target : CompiledMethod} {ret : Option CType}
    {slots : List (UInt16 × CType)} {ts args : List CType}
    (calls : Calls s index op k target ret slots) (arity : args.length = slots.length) :
    Typing s index op (ts ++ args) (ts ++ (ret.map (·.stackClass)).toList)
  | returnNone {ts : List CType} (void : s.method.ret = none) : Typing s index .ret ts ts
  | returnValue {t : CType} {ts : List CType} (result : s.ReturnsValue) :
    Typing s index .ret (ts ++ [t]) ts

/-! ## The uppermost operands -/

section
variable {s : CScope} {e e' : CEmitter} {index n k : Nat} {op : Op} {last : Bool} {i : UInt16}

theorem lower_lower {m : Nat} (e : CEmitter) (h : n ≤ m) : (e.lower m).lower n = e.lower n := by
  simp [lower, Nat.min_eq_left h]

theorem lower_self (e : CEmitter) : e.lower e.stack.size = e := by
  simp [lower]

theorem lower_push (e : CEmitter) (o : COperand) : (e.push o).lower e.stack.size = e := by
  simp [lower, push]

theorem drop_top (hn : e.stack.size = n + 1) (ho : e.stack[n]? = some o) :
    e.stack.toList.drop n = [o] := by
  rw [← Array.getElem?_toList] at ho
  rw [drop_eq_getElem?_toList_append, ho, drop_eq_nil_of_le (by simp [hn])]
  rfl

theorem top_drop (h : e.stack.toList.drop n = [o]) : e.stack[n]? = some o := by
  have hget := congrArg (·[0]?) h
  simpa [getElem?_drop] using hget

theorem exists_of_mem_drop (h : o ∈ e.stack.toList.drop n) : ∃ d, n ≤ d ∧ e.stack[d]? = some o := by
  obtain ⟨i, hi⟩ := mem_iff_getElem?.1 h
  rw [getElem?_drop, Array.getElem?_toList] at hi
  exact ⟨n + i, Nat.le_add_right n i, hi⟩

theorem types_split (e : CEmitter) (n : Nat) :
    e.types = (e.lower n).types ++ (e.stack.toList.drop n).map (·.type) := by
  rw [types_lower, types, ← map_take, ← map_append, take_append_drop]

theorem split_of_types {us : List CType} (h : e.types = ts ++ us) :
    e.stack.size = ts.length + us.length ∧ (e.lower ts.length).types = ts ∧
      (e.stack.toList.drop ts.length).map (·.type) = us := by
  refine ⟨?_, ?_, ?_⟩
  · rw [← length_types, h, length_append]
  · rw [types_lower, h, take_left]
  · rw [map_drop]
    show e.types.drop ts.length = us
    rw [h, drop_left]

theorem split_top {t : CType} (h : e.types = ts ++ [t]) :
    ∃ o, e.stack.size = ts.length + 1 ∧ (e.lower ts.length).types = ts ∧
      e.stack[ts.length]? = some o ∧ o.type = t := by
  obtain ⟨hsize, hlower, hdrop⟩ := split_of_types h
  obtain ⟨o, ho, htype⟩ := map_eq_singleton_iff.1 hdrop
  exact ⟨o, hsize, hlower, top_drop ho, htype⟩

theorem Valid.push_computed (hv : Valid e) (hn : n ≤ e.stack.size)
    (hparts : e.stack.toList.drop n = parts) (ho : COperand.ComputedFrom parts o) :
    Valid ((e.lower n).push o) := by
  subst hparts
  refine (hv.lower hn).push (ho.regular fun p hp => ?_) fun d t hr => ?_
  · obtain ⟨d, -, hd⟩ := exists_of_mem_drop hp
    exact hv.operands d p hd
  · obtain ⟨p, hp, hr⟩ := ho.reads hr
    obtain ⟨d', hd', hp⟩ := exists_of_mem_drop hp
    rw [size_lower e hn]
    exact hv.safe_lower hp hd' (Nat.le_refl n) d t hr

theorem unary_ok {f : COperand → Except CObstacle COperand} :
    e.unary f = .ok e' ↔ ∃ n a o, e.stack.size = n + 1 ∧ e.stack.toList.drop n = [a] ∧
      f a = .ok o ∧ e' = (e.lower n).push o := by
  constructor
  · intro h
    obtain ⟨⟨a, e₁⟩, hpop, h⟩ := except_bind_ok.1 h
    obtain ⟨o, ho, h⟩ := except_bind_ok.1 h
    obtain ⟨n, hn, ha, rfl⟩ := of_pop hpop
    exact ⟨n, a, o, hn, drop_top hn ha, ho, (Except.ok.inj h).symm⟩
  · rintro ⟨n, a, o, hn, ha, ho, rfl⟩
    obtain ⟨a', ha', hpop⟩ := pop_ok e hn
    obtain rfl := Option.some.inj (ha'.symm.trans (top_drop ha))
    exact except_bind_ok.2 ⟨_, hpop, except_bind_ok.2 ⟨o, ho, rfl⟩⟩

theorem binary_ok {f : COperand → COperand → Except CObstacle COperand} :
    e.binary f = .ok e' ↔ ∃ n a b o, e.stack.size = n + 2 ∧ e.stack.toList.drop n = [a, b] ∧
      f a b = .ok o ∧ e' = (e.lower n).push o := by
  constructor
  · intro h
    obtain ⟨⟨b, e₁⟩, hpop, h⟩ := except_bind_ok.1 h
    obtain ⟨⟨a, e₂⟩, hpop', h⟩ := except_bind_ok.1 h
    obtain ⟨o, ho, hpush⟩ := except_bind_ok.1 h
    obtain ⟨m, hm, hb, rfl⟩ := of_pop hpop
    obtain ⟨n, hn, ha, rfl⟩ := of_pop hpop'
    rw [size_lower e (by omega)] at hn
    subst hn
    rw [getElem?_lower e (Nat.lt_succ_self n)] at ha
    rw [lower_lower e (Nat.le_succ n)] at hpush
    refine ⟨n, a, b, o, hm, ?_, ho, (Except.ok.inj hpush).symm⟩
    rw [← Array.getElem?_toList] at ha
    rw [drop_eq_getElem?_toList_append, ha, drop_top hm hb]
    rfl
  · rintro ⟨n, a, b, o, hn, hdrop, ho, rfl⟩
    obtain ⟨b', hb, hpop⟩ := pop_ok e (n := n + 1) hn
    obtain ⟨a', ha, hpop'⟩ := pop_ok (e.lower (n + 1)) (n := n) (size_lower e (by omega))
    rw [getElem?_lower e (Nat.lt_succ_self n), ← Array.getElem?_toList] at ha
    rw [lower_lower e (Nat.le_succ n)] at hpop'
    rw [drop_eq_getElem?_toList_append, ha, drop_top hn hb] at hdrop
    obtain ⟨rfl, rfl, -⟩ := hdrop
    exact except_bind_ok.2 ⟨_, hpop, except_bind_ok.2 ⟨_, hpop', except_bind_ok.2 ⟨o, ho, rfl⟩⟩⟩

/-! ## Loads and stores -/

theorem argument_ok :
    argument s i = .ok (place, type) ↔ ∃ slot, s.method.args.get? i = some slot ∧
      CType.ofTag? slot.tag = some type ∧ place = .argument type (slot.offset + 1) := by
  unfold argument
  cases s.method.args.get? i with
  | none => simp
  | some slot =>
    cases hscalar : CType.ofTag? slot.tag with
    | none => simp [hscalar]
    | some type' =>
      simp only [hscalar, Except.ok.injEq, Prod.mk.injEq, Option.some.injEq, exists_eq_left']
      constructor
      · rintro ⟨rfl, rfl⟩
        exact ⟨rfl, rfl⟩
      · rintro ⟨rfl, rfl⟩
        exact ⟨rfl, rfl⟩

theorem localType_ok :
    localType s i = .ok type ↔ ∃ slot, s.method.locals.get? i = some slot ∧
      CType.ofTag? slot.tag = some type := by
  unfold localType
  cases s.method.locals.get? i with
  | none => simp
  | some slot => cases hscalar : CType.ofTag? slot.tag <;> simp [hscalar]

theorem staticField_ok {v : CVar} :
    staticField s index op = .ok (place, type, v) ↔ ∃ key region tag offset,
      s.method.sites[index]? = some (.field key region false tag) ∧ CType.ofTag? tag = some type ∧
      staticOffset s key = .ok offset ∧ place = .static type offset ∧ v = .static key := by
  constructor
  · intro h
    unfold staticField at h
    split at h
    · rename_i key region host tag hsite
      cases host with
      | true => cases h
      | false =>
        cases hscalar : CType.ofTag? tag with
        | none => simp [hscalar] at h
        | some type' =>
          simp only [hscalar] at h
          obtain ⟨offset, hoffset, h⟩ := except_bind_ok.1 h
          cases h
          exact ⟨key, region, tag, offset, hsite, hscalar, hoffset, rfl, rfl⟩
    · cases h
  · rintro ⟨key, region, tag, offset, hsite, hscalar, hoffset, rfl, rfl⟩
    unfold staticField
    rw [hsite]
    simp only [hscalar]
    exact except_bind_ok.2 ⟨offset, hoffset, rfl⟩

variable {access : Access} {place : CPlace} {type : CType} {v : CVar}

theorem Accesses.step_load (h : Accesses s index .load op place type v) (last : Bool) (e : CEmitter) :
    e.step s index op last = .ok (e.push (COperand.ofPlace place type v)) := by
  cases h with
  | argument there scalar =>
    exact except_bind_ok.2 ⟨_, argument_ok.2 ⟨_, there, scalar, rfl⟩, rfl⟩
  | localVar there scalar => exact except_bind_ok.2 ⟨_, localType_ok.2 ⟨_, there, scalar⟩, rfl⟩
  | static site scalar there =>
    exact except_bind_ok.2 ⟨_, staticField_ok.2 ⟨_, _, _, _, site, scalar, there, rfl, rfl⟩, rfl⟩

theorem Accesses.step_store (h : Accesses s index .store op place type v) (last : Bool)
    {e e' : CEmitter} (hstore : e.store place v = .ok e') : e.step s index op last = .ok e' := by
  cases h with
  | argument there scalar =>
    exact except_bind_ok.2 ⟨_, argument_ok.2 ⟨_, there, scalar, rfl⟩, hstore⟩
  | localVar there scalar => exact except_bind_ok.2 ⟨_, localType_ok.2 ⟨_, there, scalar⟩, hstore⟩
  | static site scalar there =>
    exact except_bind_ok.2
      ⟨_, staticField_ok.2 ⟨_, _, _, _, site, scalar, there, rfl, rfl⟩, hstore⟩

theorem Accesses.not_temporary (h : Accesses s index access op place type v) :
    place.temporary? = none ∧ ∀ d t, v ≠ .temporary d t := by
  cases h <;> simp [CPlace.temporary?]

/-! ## Literals, operations and branches -/

theorem Literal.eq (h : Literal op o) : ∃ expr native, o = COperand.literal expr native ∧
    expr.temporaries = [] ∧ ∀ place, expr ≠ .read place := by
  have hfloat : ∀ {bits : UInt32}, float bits = .ok o → ∃ expr native,
      o = literal expr native ∧ expr.temporaries = [] ∧ ∀ place, expr ≠ .read place := by
    intro bits hbits
    unfold float at hbits
    split at hbits <;> cases hbits
    exact ⟨_, _, rfl, rfl, by simp⟩
  cases h with
  | i4 v | i8 v => exact ⟨_, _, rfl, rfl, by simp⟩
  | r4 value | r8 value => exact hfloat value
  | null => exact ⟨_, _, rfl, rfl, by simp⟩

theorem Literal.step (h : Literal op o) (s : CScope) (index : Nat) (last : Bool) (e : CEmitter) :
    e.step s index op last = .ok (e.push o) := by
  cases h with
  | i4 v | i8 v => rfl
  | r4 value | r8 value => exact except_bind_ok.2 ⟨_, value, rfl⟩
  | null => rfl

theorem Computes.computedFrom (h : Computes s index op parts o) :
    COperand.ComputedFrom parts o := by
  cases h with
  | binary value => exact computed_binary value
  | compare value => exact computed_compare value
  | neg value => exact computed_neg value
  | not value => exact computed_complement value
  | conv scalar value => exact computed_convert value
  | convUnsigned value => exact computed_convertUnsigned value
  | library site known scalar arity handles => exact computed_library _ _ parts

theorem map_eq_pair {α β : Type} {f : α → β} {l : List α} {x y : β} (h : l.map f = [x, y]) :
    ∃ a b, l = [a, b] ∧ f a = x ∧ f b = y := by
  obtain ⟨a, rest, rfl, ha, hrest⟩ := map_eq_cons_iff.1 h
  obtain ⟨b, rfl, hb⟩ := map_eq_singleton_iff.1 hrest
  exact ⟨a, b, rfl, ha, hb⟩

/-- The types of the operands decide whether an operation is possible, and on the type of the result. -/
theorem Computes.of_types (h : Computes s index op parts o)
    (htypes : parts'.map (·.type) = parts.map (·.type)) :
    ∃ o', Computes s index op parts' o' ∧ o'.type = o.type := by
  cases h with
  | binary value =>
    obtain ⟨a', b', rfl, ha, hb⟩ := map_eq_pair htypes
    obtain ⟨o', ho', ht⟩ := typed₂_binary _ _ _ _ _ _ ha hb value
    exact ⟨o', .binary ho', ht⟩
  | compare value =>
    obtain ⟨a', b', rfl, ha, hb⟩ := map_eq_pair htypes
    obtain ⟨o', ho', ht⟩ := typed₂_compare _ _ _ _ _ _ _ ha hb value
    exact ⟨o', .compare ho', ht⟩
  | neg value =>
    obtain ⟨a', rfl, ha⟩ := map_eq_singleton_iff.1 htypes
    obtain ⟨o', ho', ht⟩ := typed_neg _ _ _ ha value
    exact ⟨o', .neg ho', ht⟩
  | not value =>
    obtain ⟨a', rfl, ha⟩ := map_eq_singleton_iff.1 htypes
    obtain ⟨o', ho', ht⟩ := typed_complement _ _ _ ha value
    exact ⟨o', .not ho', ht⟩
  | conv scalar value =>
    obtain ⟨a', rfl, ha⟩ := map_eq_singleton_iff.1 htypes
    obtain ⟨o', ho', ht⟩ := typed_convert _ _ _ _ ha value
    exact ⟨o', .conv scalar ho', ht⟩
  | convUnsigned value =>
    obtain ⟨a', rfl, ha⟩ := map_eq_singleton_iff.1 htypes
    obtain ⟨o', ho', ht⟩ := typed_convertUnsigned _ _ _ ha value
    exact ⟨o', .convUnsigned ho', ht⟩
  | library site known scalar arity handles =>
    refine ⟨_, .library site known scalar ?_ ?_, rfl⟩
    · rw [← arity, ← length_map (·.type), htypes, length_map]
    · have hany : ∀ os : List COperand, os.any (·.type = .ptr) =
          (os.map (·.type)).any (· = .ptr) := fun os => by simp [any_map, Function.comp_def]
      rw [hany, htypes, ← hany]
      exact handles

theorem Computes.step (h : Computes s index op parts o) (hn : e.stack.size = n + parts.length)
    (hparts : e.stack.toList.drop n = parts) (last : Bool) :
    e.step s index op last = .ok ((e.lower n).push o) := by
  cases h with
  | binary value | compare value => exact binary_ok.2 ⟨n, _, _, o, hn, hparts, value, rfl⟩
  | neg value | not value => exact unary_ok.2 ⟨n, _, o, hn, hparts, value, rfl⟩
  | conv scalar value =>
    unfold step
    refine unary_ok.2 ⟨n, _, o, hn, hparts, ?_, rfl⟩
    simp only [scalar]
    exact value
  | convUnsigned value => exact unary_ok.2 ⟨n, _, o, hn, hparts, value, rfl⟩
  | library site known scalar arity handles =>
    unfold step
    rw [site]
    simp only [callBuiltin, known, scalar]
    have hpop : e.popMany _ = _ := popMany_ok e (arity ▸ hn)
    refine except_bind_ok.2 ⟨_, hpop, ?_⟩
    rw [hparts, handles]
    rfl

theorem Branches.targets (h : Branches op parts st) :
    st.targets = op.targets ∧ st.callee? = none ∧ ∀ i, st ≠ .label i := by
  cases h <;> exact ⟨rfl, rfl, by simp⟩

theorem Branches.temporaries (h : Branches op parts st) :
    ∀ t ∈ st.temporaries, ∃ o ∈ parts, t ∈ o.expr.temporaries := by
  intro t ht
  cases h with
  | jump target => cases ht
  | jumpIf sense target o =>
    cases sense <;> simpa [CStmt.temporaries, CExpr.temporaries, CExpr.places] using ht
  | jumpCmp target value =>
    obtain ⟨expr, native, rfl, -, hplaces⟩ := computed_compare value
    obtain ⟨o, ho, hplace⟩ := hplaces _ (CExpr.mem_temporaries.1 ht)
    exact ⟨o, ho, CExpr.mem_temporaries.2 hplace⟩
  | switch targets o => exact ⟨o, mem_singleton.2 rfl, ht⟩

theorem Branches.of_types (h : Branches op parts st)
    (htypes : parts'.map (·.type) = parts.map (·.type)) : ∃ st', Branches op parts' st' := by
  cases h with
  | jump target =>
    obtain rfl := map_eq_nil_iff.1 htypes
    exact ⟨_, .jump target⟩
  | jumpIf sense target o =>
    obtain ⟨o', rfl, -⟩ := map_eq_singleton_iff.1 htypes
    exact ⟨_, .jumpIf sense target o'⟩
  | jumpCmp target value =>
    obtain ⟨a', b', rfl, ha, hb⟩ := map_eq_pair htypes
    obtain ⟨o', ho', -⟩ := typed₂_compare _ _ _ _ _ _ _ ha hb value
    exact ⟨_, .jumpCmp target ho'⟩
  | switch targets o =>
    obtain ⟨o', rfl, -⟩ := map_eq_singleton_iff.1 htypes
    exact ⟨_, .switch targets o'⟩

theorem Branches.step (h : Branches op parts st) (hv : Valid e)
    (hn : e.stack.size = n + parts.length) (hparts : e.stack.toList.drop n = parts) (s : CScope)
    (index : Nat) (last : Bool) :
    e.step s index op last = .ok ((e.lower n).materializeAll.write st) := by
  have hone : ∀ {o : COperand}, e.stack.size = n + 1 → e.stack.toList.drop n = [o] →
      e.branchOperand = .ok (o.expr, (e.lower n).materializeAll) := by
    intro o hn hdrop
    obtain ⟨o', ho', hbranch⟩ := branchOperand_ok hv hn
    obtain rfl := Option.some.inj (ho'.symm.trans (top_drop hdrop))
    exact hbranch
  cases h with
  | jump target =>
    obtain rfl : e.stack.size = n := hn
    rw [lower_self]
    rfl
  | jumpIf sense target o => exact except_bind_ok.2 ⟨_, hone hn hparts, rfl⟩
  | @jumpCmp cmp isUnsigned target a b o value =>
    -- the comparison is an operand for a moment
    have hlower : (e.lower n).stack.size = n := size_lower e (by omega)
    have hcompared := hv.push_computed (by omega) hparts (computed_compare value)
    obtain ⟨o', ho', hbranch⟩ := branchOperand_ok (n := n) hcompared (by rw [size_push, hlower])
    have htop : o' = o := by
      rw [push, Array.getElem?_push, if_pos hlower.symm, Option.some.injEq] at ho'
      exact ho'.symm
    have hback := lower_push (e.lower n) o
    rw [hlower] at hback
    rw [hback, htop] at hbranch
    exact except_bind_ok.2 ⟨_, binary_ok.2 ⟨n, a, b, o, hn, hparts, value, rfl⟩,
      except_bind_ok.2 ⟨_, hbranch, rfl⟩⟩
  | switch targets o => exact except_bind_ok.2 ⟨_, hone hn hparts, rfl⟩

/-! ## Calls -/

theorem Calls.step {target : CompiledMethod} {ret : Option CType}
    {slots : List (UInt16 × CType)} (h : Calls s index op k target ret slots) (hv : Valid e)
    (hn : e.stack.size = n + slots.length) (last : Bool) :
    ∃ e', Settles (e.lower n) e' ∧
      (∀ (d : Nat) o, e'.stack[d]? = some o → ∀ key, .static key ∉ o.reads) ∧
      (∀ type ∈ ret, ∀ (d : Nat) o, e'.stack[d]? = some o →
        .temporary n type.stackClass ∉ o.reads) ∧
      e.step s index op last =
        .ok (e'.called k (max target.args.size 1) ret slots (e.stack.toList.drop n)) := by
  obtain ⟨isVirtual, m, rfl⟩ := h.call
  obtain ⟨pops, storage, hsite⟩ := h.site
  have hlower : (e.lower n).stack.size = n := size_lower e (by omega)
  have hlow := hv.lower (n := n) (by omega)
  obtain ⟨e₁, hspill, hsettles, hstatic⟩ := spill_ok hlow readsStatic fun d t _ => rfl
  have hunread : ∀ (d : Nat) o, e₁.stack[d]? = some o → ∀ key, .static key ∉ o.reads := by
    intro d o ho key hr
    have hnone := hstatic d o ho
    rw [readsStatic, any_eq_false] at hnone
    exact hnone _ hr rfl
  have hstep : ∀ {e' : CEmitter}, e.callMethod s k = .ok e' →
      e.step s index (.call isVirtual m) last = .ok e' := by
    intro e' hcall
    unfold step
    rw [hsite]
    exact hcall
  cases ret with
  | none =>
    refine ⟨e₁, hsettles, hunread, by simp, hstep ?_⟩
    unfold callMethod
    rw [h.callee]
    dsimp only
    rw [h.status]
    exact except_bind_ok.2 ⟨_, h.result, except_bind_ok.2 ⟨_, h.slots,
      except_bind_ok.2 ⟨_, popMany_ok e hn, except_bind_ok.2 ⟨e₁, hspill, rfl⟩⟩⟩⟩
  | some type =>
    have hsettling := hsettles.settling hlow
    have hsize : e₁.stack.size = n := hsettling.size.trans hlower
    obtain ⟨e₂, hspill', hsettles', hfree⟩ :=
      spillReaders_ok (v := .temporary n type.stackClass) hsettling.valid fun d t hd h => by
        cases h
        omega
    have hsettling' := hsettles'.settling hsettling.valid
    have hsize' : e₂.stack.size = n := hsettling'.size.trans hsize
    refine ⟨e₂, hsettles.trans hsettles', fun d o ho key => ?_, fun type' htype => ?_, hstep ?_⟩
    · exact hsettling'.not_mem_reads (by simp) (fun o ho => hunread d o ho key) o ho
    · cases htype
      exact hfree
    unfold callMethod
    rw [h.callee]
    dsimp only
    rw [h.status]
    refine except_bind_ok.2 ⟨_, h.result, except_bind_ok.2 ⟨_, h.slots,
      except_bind_ok.2 ⟨_, popMany_ok e hn, except_bind_ok.2 ⟨e₁, hspill, ?_⟩⟩⟩⟩
    refine except_bind_ok.2 ⟨e₂, hsize ▸ hspill', ?_⟩
    simp only [called, hsize, hsize']
    rfl

theorem callMethod_cases (h : e.callMethod s k = .ok e') : ∃ target ret slots n,
    s.methods[k]? = some target ∧ target.cStatus.reason? = none ∧ resultType target = .ok ret ∧
      argumentSlots target = .ok slots ∧ e.stack.size = n + slots.length := by
  unfold callMethod at h
  cases hcallee : s.methods[k]? with
  | none =>
    simp only [hcallee] at h
    cases h
  | some target =>
    simp only [hcallee] at h
    cases hstatus : target.cStatus.reason? with
    | some reason =>
      simp only [hstatus] at h
      cases h
    | none =>
      simp only [hstatus] at h
      obtain ⟨ret, hret, h⟩ := except_bind_ok.1 h
      obtain ⟨slots, hslots, h⟩ := except_bind_ok.1 h
      obtain ⟨⟨args, e₁⟩, hpop, -⟩ := except_bind_ok.1 h
      obtain ⟨n, hn, -⟩ := of_popMany hpop
      exact ⟨target, ret, slots, n, rfl, hstatus, hret, hslots, hn⟩

theorem callBuiltin_cases {id : UInt16} {pops : Nat} {ret : Option Storage}
    (h : e.callBuiltin s id pops ret = .ok e') : ∃ symbol native storage n, ret = some storage ∧
      s.builtins.symbol? id = some symbol ∧ CType.ofTag? symbol.ret = some native ∧
      e.stack.size = n + pops ∧ (e.stack.toList.drop n).any (·.type = .ptr) = false := by
  unfold callBuiltin at h
  cases hknown : s.builtins.symbol? id with
  | none =>
    simp only [hknown] at h
    cases h
  | some symbol =>
    simp only [hknown] at h
    cases ret with
    | none => cases h
    | some storage =>
      cases hscalar : CType.ofTag? symbol.ret with
      | none =>
        simp only [hscalar] at h
        cases h
      | some native =>
        simp only [hscalar] at h
        obtain ⟨⟨args, e₁⟩, hpop, h⟩ := except_bind_ok.1 h
        obtain ⟨n, hn, rfl, rfl⟩ := of_popMany hpop
        cases hany : (e.stack.toList.drop n).any (·.type = .ptr) with
        | true =>
          simp only [hany] at h
          cases h
        | false => exact ⟨symbol, native, storage, n, rfl, rfl, hscalar, hn, hany⟩

theorem types_called (e : CEmitter) (k size : Nat) (ret : Option CType)
    (slots : List (UInt16 × CType)) (args : List COperand) :
    (e.called k size ret slots args).types = e.types ++ (ret.map (·.stackClass)).toList := by
  cases ret with
  | none => simp [called, types, write]
  | some type => simp [called, types, write, push]

/-! ## Types decide -/

/-- **An instruction can be written if the types of the operands allow it.** -/
theorem Typing.step {ts' : List CType} (h : Typing s index op e.types ts') (hv : Valid e) (last : Bool) :
    ∃ e', e.step s index op last = .ok e' ∧ Emits s index last e op e' ∧ e'.types = ts' := by
  generalize hts : e.types = ts at h
  cases h with
  | nop => exact ⟨e, rfl, .nop, hts⟩
  | load access =>
    exact ⟨_, access.step_load last e, .load access, by rw [types_push, hts]; rfl⟩
  | literal literal =>
    exact ⟨_, literal.step s index last e, .literal literal, by rw [types_push, hts]⟩
  | @dup t ts =>
    obtain ⟨o, hn, -, ho, htype⟩ := split_top hts
    obtain ⟨o', e', hsettles, htop, hsafe, hdup⟩ := dup_ok hv hn
    have hsettling := hsettles.settling hv
    refine ⟨_, hdup, .dup hn hsettles htop hsafe, ?_⟩
    have hsame : o'.type = t := by
      have h₁ := getElem?_types e' ts.length
      rw [htop, hsettling.types, hts] at h₁
      simpa using h₁.symm
    rw [types_push, hsettling.types, hts, hsame, append_assoc]
    rfl
  | @pop t ts =>
    obtain ⟨o, hn, hlower, ho, htype⟩ := split_top hts
    obtain ⟨o', -, hpop⟩ := pop_ok e hn
    exact ⟨_, except_bind_ok.2 ⟨_, hpop, rfl⟩, .pop hn, hlower⟩
  | store access =>
    obtain ⟨o, hn, hlower, ho, htype⟩ := split_top hts
    obtain ⟨o', e', ho', hsettles, hunread, hstore⟩ :=
      store_ok hv hn access.not_temporary.2 _
    refine ⟨_, access.step_store last hstore, .store access hn ho' hsettles hunread, ?_⟩
    exact (hsettles.settling (hv.lower (by omega))).types.trans hlower
  | @compute _ parts o ts computes =>
    obtain ⟨hn, hlower, hdrop⟩ := split_of_types hts
    obtain ⟨o', hcomputes, htype⟩ := computes.of_types hdrop
    rw [← hdrop, length_map] at hn
    refine ⟨_, hcomputes.step hn rfl last, .compute hcomputes hn rfl, ?_⟩
    rw [types_push, hlower, htype]
  | @branch _ parts st ts branches =>
    obtain ⟨hn, hlower, hdrop⟩ := split_of_types hts
    obtain ⟨st', hbranches⟩ := branches.of_types hdrop
    rw [← hdrop, length_map] at hn
    refine ⟨_, hbranches.step hv hn rfl s index last, .branch hbranches hn rfl, ?_⟩
    exact (settling_materializeAll (hv.lower (by omega))).types.trans hlower
  | @call _ k target ret slots ts args calls arity =>
    obtain ⟨hn, hlower, -⟩ := split_of_types hts
    obtain ⟨e', hsettles, hunread, hresult, hstep⟩ := calls.step hv (arity ▸ hn) last
    refine ⟨_, hstep, .call calls (arity ▸ hn) hsettles hunread hresult, ?_⟩
    rw [types_called, (hsettles.settling (hv.lower (by omega))).types, hlower]
  | returnNone void =>
    refine ⟨_, ?_, .returnNone void, ?_⟩
    · show e.ret s last = _
      simp only [ret, void]
    · cases last <;> exact hts
  | returnValue result =>
    obtain ⟨o, hn, hlower, ho, htype⟩ := split_top hts
    obtain ⟨o', ho', hpop⟩ := pop_ok e hn
    refine ⟨_, ?_, .returnValue result hn ho', hlower⟩
    rcases result with ⟨tag, narrowed, hret⟩ | hret <;>
    · show e.ret s last = _
      simp only [ret, hret]
      exact except_bind_ok.2 ⟨_, hpop, rfl⟩

/-- **The types of the operands allow an instruction that was written.** -/
theorem typing_of_step (h : e.step s index op last = .ok e') :
    ∃ ts', Typing s index op e.types ts' := by
  have hone : ∀ {f : COperand → Except CObstacle COperand},
      (∀ {a o}, f a = .ok o → Computes s index op [a] o) → e.unary f = .ok e' →
      ∃ ts', Typing s index op e.types ts' := by
    intro f hf h
    obtain ⟨n, a, o, -, ha, ho, -⟩ := unary_ok.1 h
    rw [types_split e n, ha]
    exact ⟨_, .compute (hf ho)⟩
  have htwo : ∀ {f : COperand → COperand → Except CObstacle COperand},
      (∀ {a b o}, f a b = .ok o → Computes s index op [a, b] o) → e.binary f = .ok e' →
      ∃ ts', Typing s index op e.types ts' := by
    intro f hf h
    obtain ⟨n, a, b, o, -, hdrop, ho, -⟩ := binary_ok.1 h
    rw [types_split e n, hdrop]
    exact ⟨_, .compute (hf ho)⟩
  -- the operand on top
  have htop : ∀ {e₁ : CEmitter} {o : COperand}, e.pop = .ok (o, e₁) →
      ∃ n, e.types = (e.lower n).types ++ [o].map (·.type) := by
    intro e₁ o hpop
    obtain ⟨n, hn, ho, -⟩ := of_pop hpop
    exact ⟨n, by rw [← drop_top hn ho]; exact types_split e n⟩
  have hstore : ∀ {place : CPlace} {type : CType} {v : CVar},
      Accesses s index .store op place type v → e.store place v = .ok e' →
      ∃ ts', Typing s index op e.types ts' := by
    intro place type v access h
    obtain ⟨⟨o, e₁⟩, hpop, -⟩ := except_bind_ok.1 h
    obtain ⟨n, hn⟩ := htop hpop
    rw [hn]
    exact ⟨_, .store access⟩
  have hbranch : ∀ {x : CExpr × CEmitter}, e.branchOperand = .ok x →
      (∀ o, ∃ st, Branches op [o] st) → ∃ ts', Typing s index op e.types ts' := by
    intro x h hst
    obtain ⟨⟨o, e₁⟩, hpop, -⟩ := except_bind_ok.1 h
    obtain ⟨n, hn⟩ := htop hpop
    obtain ⟨st, hst⟩ := hst o
    rw [hn]
    exact ⟨_, .branch hst⟩
  cases op with
  | nop => exact ⟨_, .nop⟩
  | slot area access i =>
    cases area with
    | arguments =>
      cases access with
      | load =>
        obtain ⟨⟨place, type⟩, hplace, -⟩ := except_bind_ok.1 h
        obtain ⟨slot, there, scalar, rfl⟩ := argument_ok.1 hplace
        exact ⟨_, .load (.argument there scalar)⟩
      | store =>
        obtain ⟨⟨place, type⟩, hplace, h⟩ := except_bind_ok.1 h
        obtain ⟨slot, there, scalar, rfl⟩ := argument_ok.1 hplace
        exact hstore (.argument there scalar) h
      | address => cases h
    | locals =>
      cases access with
      | load =>
        obtain ⟨type, htype, -⟩ := except_bind_ok.1 h
        obtain ⟨slot, there, scalar⟩ := localType_ok.1 htype
        exact ⟨_, .load (.localVar there scalar)⟩
      | store =>
        obtain ⟨type, htype, h⟩ := except_bind_ok.1 h
        obtain ⟨slot, there, scalar⟩ := localType_ok.1 htype
        exact hstore (.localVar there scalar) h
      | address => cases h
  | const value =>
    cases value with
    | i4 v => exact ⟨_, .literal (.i4 v)⟩
    | i8 v => exact ⟨_, .literal (.i8 v)⟩
    | r4 bits =>
      obtain ⟨o, ho, -⟩ := except_bind_ok.1 h
      exact ⟨_, .literal (.r4 ho)⟩
    | r8 bits =>
      obtain ⟨o, ho, -⟩ := except_bind_ok.1 h
      exact ⟨_, .literal (.r8 ho)⟩
  | null => exact ⟨_, .literal .null⟩
  | dup =>
    cases hn : e.stack.size with
    | zero =>
      have h : e.dup = .ok e' := h
      simp only [dup, Array.back?_eq_getElem?] at h
      rw [Array.getElem?_eq_none (by omega)] at h
      cases h
    | succ n =>
      obtain ⟨o, ho, hpop⟩ := pop_ok e hn
      obtain ⟨n, hn⟩ := htop hpop
      rw [hn]
      exact ⟨_, .dup⟩
  | pop =>
    obtain ⟨⟨o, e₁⟩, hpop, -⟩ := except_bind_ok.1 h
    obtain ⟨n, hn⟩ := htop hpop
    rw [hn]
    exact ⟨_, .pop⟩
  | ret =>
    have h : e.ret s last = .ok e' := h
    unfold ret at h
    split at h
    · cases h
    · cases h
    · cases h
    · rename_i hret
      exact ⟨_, .returnNone hret⟩
    · rename_i storage hvalue hboxed haddress hret
      obtain ⟨⟨o, e₁⟩, hpop, -⟩ := except_bind_ok.1 h
      obtain ⟨n, hn⟩ := htop hpop
      rw [hn]
      refine ⟨_, .returnValue ?_⟩
      cases storage with
      | scalar tag narrowed => exact .inl ⟨tag, narrowed, hret⟩
      | reference => exact .inr hret
      | value key => exact absurd rfl (hvalue key)
      | boxed => exact absurd rfl hboxed
      | address => exact absurd rfl haddress
  | jump t =>
    have htyping : Typing s index (.jump t) (e.types ++ [].map type) e.types :=
      .branch (.jump t)
    rw [map_nil, append_nil] at htyping
    exact ⟨_, htyping⟩
  | jumpIf sense t =>
    obtain ⟨x, hx, -⟩ := except_bind_ok.1 h
    exact hbranch hx fun o => ⟨_, .jumpIf sense t o⟩
  | jumpCmp cmp isUnsigned t =>
    obtain ⟨e₁, hbinary, -⟩ := except_bind_ok.1 h
    obtain ⟨n, a, b, o, -, hdrop, ho, -⟩ := binary_ok.1 hbinary
    rw [types_split e n, hdrop]
    exact ⟨_, .branch (.jumpCmp t ho)⟩
  | switch targets =>
    obtain ⟨x, hx, -⟩ := except_bind_ok.1 h
    exact hbranch hx fun o => ⟨_, .switch targets o⟩
  | binary op => exact htwo .binary h
  | neg => exact hone .neg h
  | not => exact hone .not h
  | conv p =>
    unfold step at h
    refine hone (fun {a o} ho => ?_) h
    cases hscalar : CType.ofTag? (Tag.ofPrimitive p) with
    | none =>
      simp only [hscalar] at ho
      cases ho
    | some type =>
      simp only [hscalar] at ho
      exact .conv hscalar ho
  | convUnsignedToFloat => exact hone .convUnsigned h
  | compare relation isUnsigned => exact htwo .compare h
  | field isStatic access f =>
    cases isStatic with
    | false => cases h
    | true =>
      cases access with
      | load =>
        obtain ⟨⟨place, type, v⟩, hplace, -⟩ := except_bind_ok.1 h
        obtain ⟨key, region, tag, offset, site, scalar, there, rfl, rfl⟩ := staticField_ok.1 hplace
        exact ⟨_, .load (.static site scalar there)⟩
      | store =>
        obtain ⟨⟨place, type, v⟩, hplace, h⟩ := except_bind_ok.1 h
        obtain ⟨key, region, tag, offset, site, scalar, there, rfl, rfl⟩ := staticField_ok.1 hplace
        exact hstore (.static site scalar there) h
      | address => cases h
  | call isVirtual m =>
    unfold step at h
    cases hsite : s.method.sites[index]? with
    | none =>
      rw [hsite] at h
      cases h
    | some site =>
      rw [hsite] at h
      cases site with
      | plain | field key region host tag => cases h
      | call target pops ret =>
        cases target with
        | builtin id =>
          obtain ⟨symbol, native, storage, n, rfl, known, scalar, hn, handles⟩ := callBuiltin_cases h
          rw [types_split e n]
          exact ⟨_, .compute (.library hsite known scalar (by simp [hn]) handles)⟩
        | user k =>
          obtain ⟨target, ret', slots, n, callee, status, result, hslots, hn⟩ := callMethod_cases h
          rw [types_split e n]
          exact ⟨_, .call ⟨⟨isVirtual, m, rfl⟩, ⟨pops, ret, hsite⟩, callee, status, result, hslots⟩
            (by simp [hn])⟩
        | slot i => cases h
  | _ => cases h

/-- **What an instruction that was written made of the emitter.** -/
theorem emits_of_step (hv : Valid e) (h : e.step s index op last = .ok e') :
    Emits s index last e op e' ∧ Typing s index op e.types e'.types := by
  obtain ⟨ts', htyping⟩ := typing_of_step h
  obtain ⟨e₁, hstep, hemits, htypes⟩ := htyping.step hv last
  rw [h, Except.ok.injEq] at hstep
  subst hstep
  exact ⟨hemits, htypes ▸ htyping⟩

end

end CEmitter

end DeviceCode
