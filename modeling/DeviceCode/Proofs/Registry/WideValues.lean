import DeviceCode.Proofs.Registry.Identity
import DeviceCode.Proofs.Registry.Lowered

/-!
# Values of 64 bits

The device keeps values of 64 bits in 32, and the policy of a build says what happens to a method that
has such values. `storedTypes` are the types of what a method keeps in its frame and in the fields and
elements that it accesses, and `Op.passing?` is the 64-bit type of what only passes through an
instruction. Main statement: `narrowings_noted`, the policy sees every narrowing of a primitive, and
none of an enumeration. `enum_not_noted`: enumerations of 64-bit values pass the strictest policy.
-/

namespace DeviceCode

open Growth

open Registry.FrameTypes

open List

variable {lowered : LoweredOp} {r r' : Registry} {index : Nat} {body : Body} {d : MethodDef}
  {c : BuildContext} {came : List (String × MethodId × List TypeRef)}
  {warned warned' : List Diagnostic} {wide : Option Primitive} {typeArgs : List TypeRef}
  {compile : Compiler} {l : Lowering} {p : Program}

/-! ## Narrowed types -/

/-- Values of the type are kept in fewer bits than they have. -/
def Program.narrows (p : Program) (t : TypeRef) : Bool :=
  match Storage.ofType p t with
  | .ok s => s.narrowed
  | .error _ => false

def Program.isEnum (p : Program) : TypeRef → Bool
  | .named id _ =>
    match p.typeDef? id with
    | some d =>
      match d.kind with
      | .enumType _ => true
      | _ => false
    | none => false
  | _ => false

theorem TypeRef.isSome_wide? (p : Program) (t : TypeRef) :
    t.wide?.isSome = (p.narrows t && !p.isEnum t) := by
  cases t with
  | primitive q =>
    show (if q.isWide then some q else none).isSome = (q.isWide && true)
    cases q.isWide <;> rfl
  | named id args =>
    show false = _
    unfold Program.narrows Program.isEnum Storage.ofType
    cases hd : p.typeDef? id with
    | none => simp [hd]
    | some d => cases hk : d.kind <;> simp [hd, hk, Storage.narrowed]
  | _ => rfl

/-! ## The types in a method -/

/-- The type of the elements. -/
def ElementKind.type? (typeArgs : List TypeRef) : ElementKind → Option TypeRef
  | .primitive q => some (.primitive q)
  | .reference => none
  | .any type => some (type.substitute typeArgs)

/-- The type of the field that an operand stands for. -/
def FieldRef.type? (f : FieldRef) (p : Program) (typeArgs : List TypeRef) : Option TypeRef :=
  (p.resolveField { f with owner := f.owner.substitute typeArgs }).toOption.map (·.type)

namespace Op

/-- The type of the field or of the element that an instruction accesses. -/
def memberType? (p : Program) (typeArgs : List TypeRef) : Op → Option TypeRef
  | .field _ _ f => f.type? p typeArgs
  | .loadElement kind | .storeElement kind => kind.type? typeArgs
  | _ => none

/-- The 64-bit type of a value that passes through an instruction: of a constant, and of what is
converted, moved through a pointer or returned by a call. -/
def passing? (typeArgs : List TypeRef) : Op → Option Primitive
  | .const (.i8 _) => some .i64
  | .const (.r8 _) => some .f64
  | .conv q | .loadThrough (some q) | .storeThrough (some q) => (TypeRef.primitive q).wide?
  | .call _ m => (m.resultType typeArgs).wide?
  | _ => none

/-- The 64-bit type that an instruction brings in. -/
def wide? (p : Program) (typeArgs : List TypeRef) (op : Op) : Option Primitive :=
  ((op.memberType? p typeArgs).bind TypeRef.wide?).or (op.passing? typeArgs)

end Op

/-- The types of what a method keeps: of its parameters, its local variables and its result, and of
the fields and elements that it accesses. -/
def storedTypes (p : Program) (d : MethodDef) (body : Body) (typeArgs : List TypeRef) :
    List TypeRef :=
  let frame := Registry.FrameTypes.of d body typeArgs
  frame.params ++ frame.locals ++ [frame.ret] ++
    body.code.toList.filterMap (·.op.memberType? p typeArgs)

/-- A 64-bit type that is no enumeration is kept or passes through. -/
def bringsWide (p : Program) (d : MethodDef) (body : Body) (typeArgs : List TypeRef) : Bool :=
  (storedTypes p d body typeArgs).any (fun t => p.narrows t && !p.isEnum t) ||
    body.code.toList.any fun i => (i.op.passing? typeArgs).isSome

/-! ## What lowering finds -/

namespace Lowering

variable {type : TypeRef} {op : Op}

theorem narrowedType_eq {s : Storage}
    (h : Storage.ofType p type = .ok s) : narrowedType (some s) type = type.wide? := by
  cases type with
  | primitive q =>
    cases h
    show (if q.isWide then (if q.isWide then some q else none) else none) = _
    cases hq : q.isWide <;> simp [TypeRef.wide?, hq]
  | _ =>
    show (if s.narrowed then none else none) = _
    rw [ite_self]
    rfl

theorem narrowedType_result {storage : Option Storage}
    (h : Storage.ofResult p type = .ok storage) : narrowedType storage type = type.wide? := by
  unfold Storage.ofResult at h
  split at h
  · rename_i hvoid
    cases h
    cases type <;> first | rfl | cases hvoid
  · obtain ⟨s, hs, rfl⟩ := except_map_ok.1 h
    exact narrowedType_eq hs

theorem lowerCall_wide {isVirtual : Bool} {m : MethodRef}
    (h : l.lowerCall isVirtual m r = .ok lowered r') :
    lowered.wide = (m.resultType l.typeArgs).wide? := by
  obtain ⟨target, key, storage, r₁, -, -, hstorage, rfl⟩ := lowerCall_eq h
  exact narrowedType_result hstorage

theorem lowerField_wide {isStatic : Bool} {access : Access} {f : FieldRef}
    (h : l.lowerField isStatic access f r = .ok lowered r') :
    lowered.wide = (Op.field isStatic access f).wide? l.program l.typeArgs := by
  obtain ⟨resolved, storage, hresolved, hstorage, -, rfl⟩ := lowerField_eq h
  have hmember : f.type? l.program l.typeArgs = some resolved.type := by
    unfold FieldRef.type?
    rw [hresolved]
    rfl
  refine (narrowedType_eq hstorage).trans ?_
  show _ = ((f.type? l.program l.typeArgs).bind TypeRef.wide?).or none
  rw [hmember, Option.or_none]
  rfl

theorem elementOp_wide {opcode : Opcode} {kind : ElementKind}
    (h : l.elementOp opcode kind = .ok lowered) :
    lowered.wide = (kind.type? l.typeArgs).bind TypeRef.wide? := by
  cases kind with
  | primitive q | reference =>
    cases h
    rfl
  | any type =>
    obtain ⟨storage, hstorage, h⟩ := except_bind_ok.1 h
    show _ = (type.substitute l.typeArgs).wide?
    rw [← narrowedType_eq hstorage]
    cases storage <;> (cases h; rfl)

theorem lowerPlain_wide (h : l.lowerPlain index op = .ok lowered) :
    lowered.wide = op.wide? l.program l.typeArgs := by
  have pieces : ∀ {x : Except CompileError (List Piece)},
      (do return { pieces := ← x } : Except CompileError LoweredOp) = .ok lowered →
      lowered.wide = none := by
    intro x hx
    obtain ⟨_, -, hx⟩ := except_bind_ok.1 hx
    rw [except_pure_ok] at hx
    subst hx
    rfl
  cases op with
  | slot area access n =>
    obtain ⟨_, -, h⟩ := except_bind_ok.1 h
    rw [except_pure_ok] at h
    subst h
    rfl
  | const c => cases c <;> (cases h; rfl)
  | text s | switch targets | callIndirect params returns => exact pieces h
  | loadThrough pointee | storeThrough pointee => cases pointee <;> (cases h; rfl)
  | loadElement kind | storeElement kind =>
    rw [elementOp_wide h]
    show _ = ((kind.type? l.typeArgs).bind TypeRef.wide?).or none
    rw [Option.or_none]
  | _ => cases h <;> rfl

/-- **An instruction that is lowered** brings in the 64-bit type of what it accesses or passes on. -/
theorem lowerOp_wide (h : l.lowerOp index op r = .ok lowered r') :
    lowered.wide = op.wide? l.program l.typeArgs := by
  cases (lowerOp_ok h).2 with
  | plain hplain => exact lowerPlain_wide hplain
  | call => exact lowerCall_wide h
  | field => exact lowerField_wide h
  | _ => rfl

theorem lowerNext_wide : ∀ {items : List (Instruction × Nat)}
    {body body' : LoweredBody} {r r' : Registry},
    items.foldlM l.lowerNext body r = .ok body' r' →
    body'.wide = body.wide.or (items.findSome? fun i => i.1.op.wide? l.program l.typeArgs)
  | [], body, body', r, r', h => by
    obtain ⟨rfl, -⟩ := state_pure_ok.1 h
    rw [findSome?_nil, Option.or_none]
  | item :: items, body, body', r, r', h => by
    obtain ⟨next, r₁, hnext, h⟩ := state_bind_ok.1 h
    obtain ⟨lowered, r₂, hop, hnext⟩ := state_bind_ok.1 hnext
    obtain ⟨rfl, -⟩ := state_pure_ok.1 hnext
    rw [lowerNext_wide h, findSome?_cons, ← lowerOp_wide hop]
    cases body.wide <;> cases lowered.wide <;> rfl

theorem lowerBody_wide {body : LoweredBody} (h : l.lowerBody r = .ok body r') :
    body.wide = l.code.toList.findSome? fun i => i.op.wide? l.program l.typeArgs := by
  have hitems := findSome?_map (l := l.code.toList.zipIdx) (f := Prod.fst)
    (p := fun i : Instruction => i.op.wide? l.program l.typeArgs)
  rw [zipIdx_map_fst] at hitems
  rw [hitems]
  exact lowerNext_wide h

end Lowering

theorem isSome_wide_of_body (p : Program) (d : MethodDef) (body : Body) (typeArgs : List TypeRef) :
    ((Registry.FrameTypes.of d body typeArgs).wide? <|>
      body.code.toList.findSome? fun i => i.op.wide? p typeArgs).isSome =
    bringsWide p d body typeArgs := by
  have hcode : (body.code.toList.findSome? fun i => i.op.wide? p typeArgs).isSome =
      ((body.code.toList.filterMap (·.op.memberType? p typeArgs)).any (·.wide?.isSome) ||
        body.code.toList.any fun i => (i.op.passing? typeArgs).isSome) := by
    rw [isSome_findSome?]
    induction body.code.toList with
    | nil => rfl
    | cons i code ih =>
      rw [any_cons, ih, filterMap_cons]
      unfold Op.wide?
      cases i.op.memberType? p typeArgs with
      | none => simp [Bool.or_left_comm]
      | some t =>
        simp only [Option.bind_some, Option.isSome_or, any_cons]
        ac_rfl
  have hframe : (of d body typeArgs).wide?.isSome =
      ((of d body typeArgs).params ++
        (of d body typeArgs).locals ++
          [(of d body typeArgs).ret]).any (·.wide?.isSome) :=
    isSome_findSome?
  have horElse : ∀ a b : Option Primitive, (a <|> b).isSome = (a.isSome || b.isSome) := by
    intro a b
    cases a <;> rfl
  have hstored : ∀ f, (storedTypes p d body typeArgs).any f = (_ || _) := fun f => any_append
  rw [horElse, hframe, hcode, bringsWide, hstored, Bool.or_assoc]
  simp [TypeRef.isSome_wide? p]

namespace Registry

/-! ## The methods that came -/

/-- The method brings in a 64-bit type. -/
def isWide (p : Program) (x : String × MethodId × List TypeRef) : Bool :=
  match p.methodDef? x.2.1 with
  | some d =>
    match d.body with
    | some body => bringsWide p d body x.2.2
    | none => false
  | none => false

variable {x : String × MethodId × List TypeRef} {name : String} {u : Unit}

theorem isWide_eq (hd : p.methodDef? x.2.1 = some d) (hbody : d.body = some body) :
    isWide p x = bringsWide p d body x.2.2 := by
  simp [isWide, hd, hbody]

/-- What a warning about 64-bit values of a method is known by. -/
def wideWarning (name : String) : Option String × Option String := (some "D101", some name)

/-- The methods that came have bodies, and the policy was followed: none of them brings in a 64-bit
type, or those that do are named in the warnings. -/
structure Follows (c : BuildContext) (came : List (String × MethodId × List TypeRef))
    (warned : List Diagnostic) : Prop where
  bodies : ∀ x ∈ came, ∃ d body, c.program.methodDef? x.2.1 = some d ∧ d.body = some body
  reject : c.options.wideValues = .reject → ∀ x ∈ came, isWide c.program x = false
  warn : c.options.wideValues = .warn → (warned.map fun w => (w.code, w.method)).Perm
    ((came.filter (isWide c.program)).map (wideWarning ·.1))

theorem Follows.append {came' : List (String × MethodId × List TypeRef)} (h : Follows c came warned)
    (h' : Follows c came' warned') :
    Follows c (came ++ came') (warned ++ warned') where
  bodies x hx := (mem_append.1 hx).elim (h.bodies x) (h'.bodies x)
  reject hp x hx := (mem_append.1 hx).elim (h.reject hp x) (h'.reject hp x)
  warn hp := by
    rw [map_append, filter_append, map_append]
    exact (h.warn hp).append (h'.warn hp)

theorem Follows.single {own : List Diagnostic}
    (hd : c.program.methodDef? x.2.1 = some d) (hbody : d.body = some body)
    (hwide : wide.isSome = isWide c.program x)
    (hreject : c.options.wideValues = .reject → wide = none)
    (hwarn : c.options.wideValues = .warn → own.map (fun w => (w.code, w.method)) =
      if wide.isSome then [wideWarning x.1] else []) :
    Follows c [x] own := by
  refine ⟨?_, fun hp => ?_, fun hp => ?_⟩
  · rw [forall_mem_singleton]
    exact ⟨d, body, hd, hbody⟩
  · rw [forall_mem_singleton, ← hwide, hreject hp]
    rfl
  · rw [hwarn hp, hwide, filter_singleton]
    cases isWide c.program x <;> exact .refl _

theorem Follows.perm (h : Follows c came warned) (hp : warned'.Perm warned) :
    Follows c came warned' where
  bodies := h.bodies
  reject := h.reject
  warn hwarn := (hp.map _).trans (h.warn hwarn)

/-- Methods came, with warnings as the policy says. -/
def Noted (c : BuildContext) (r r' : Registry) : Prop :=
  ∃ came warned, r'.names = r.names ++ came ∧ r'.warnings.toList = r.warnings.toList ++ warned ∧
    Follows c came warned

/-- Neither methods nor warnings came. -/
structure Quiet (r r' : Registry) : Prop where
  names : r'.names = r.names
  warnings : r'.warnings = r.warnings

theorem growth_quiet : Growth Quiet where
  refl _ := ⟨rfl, rfl⟩
  trans h₁ h₂ := ⟨h₂.names.trans h₁.names, h₂.warnings.trans h₁.warnings⟩

theorem Quiet.noted (h : Quiet r r') (c : BuildContext) : Noted c r r' :=
  ⟨[], [], by rw [h.names, append_nil], by rw [h.warnings, append_nil],
    ⟨by simp, by simp, fun _ => .refl _⟩⟩

theorem quiet_modifyMethod {f : CompiledMethod → CompiledMethod}
    (hf : ∀ m, identity (f m) = identity m) (index : Nat) (r : Registry) :
    Quiet r (r.modifyMethod index f) := ⟨(sameNames_modifyMethod hf index r).names, rfl⟩

theorem quiet_addLayoutRoot (t : TypeRef) (r : Registry) : Quiet r (r.addLayoutRoot t) := by
  refine ⟨(sameNames_addLayoutRoot t r).names, ?_⟩
  unfold addLayoutRoot
  split <;> rfl

theorem growth_noted (c : BuildContext) : Growth (Noted c) where
  refl r := (growth_quiet.refl r).noted c
  trans := by
    rintro r s t ⟨came, warned, hnames, hwarnings, h⟩ ⟨came', warned', hnames', hwarnings', h'⟩
    exact ⟨came ++ came', warned ++ warned', by rw [hnames', hnames, append_assoc],
      by rw [hwarnings', hwarnings, append_assoc], h.append h'⟩

/-! ## Compiling -/

theorem checkWide_ok {policy : WidePolicy} (h : checkWide policy name wide r = .ok u r') :
    r'.names = r.names ∧ (policy = .reject → wide = none) ∧
      ∃ own, r'.warnings.toList = r.warnings.toList ++ own ∧
        (policy = .warn → own.map (fun w => (w.code, w.method)) =
          if wide.isSome then [wideWarning name] else []) := by
  cases wide with
  | none =>
    obtain ⟨-, rfl⟩ := state_pure_ok.1 h
    exact ⟨rfl, fun _ => rfl, [], by simp, fun _ => rfl⟩
  | some q =>
    cases policy with
    | narrow =>
      obtain ⟨-, rfl⟩ := state_pure_ok.1 h
      exact ⟨rfl, by simp, [], by simp, by simp⟩
    | warn =>
      cases state_modify_ok.1 h
      exact ⟨rfl, by simp, [_], by rw [Array.toList_push], fun _ => rfl⟩
    | reject => cases h

theorem quiet_discoverClass (p : Program) (t : TypeRef) (r : Registry) :
    Quiet r (r.discoverClass p t) := by
  refine ⟨(sameNames_discoverClass p t r).names, ?_⟩
  unfold discoverClass
  dsimp only
  split <;> rfl

theorem register_warnings {id : MethodId} {m : MethodDef}
    (h : register p id m body typeArgs name r = .ok index r') : r'.warnings = r.warnings :=
  (keeps_register (Q := fun r r' => r'.warnings = r.warnings) growth_quiet (fun _ _ h => h.warnings)
    (fun _ _ _ h₁ h₂ => h₂.trans h₁.warnings) quiet_addLayoutRoot p id m body typeArgs name
    fun _ _ _ => rfl).ok h

theorem allows_noted (hcompile : Compiler.Leads l.compile (Noted l.context)) :
    l.Allows (fun _ => True) fun x => Leads (Noted l.context) x where
  closed := (growth_noted _).closed_leads
  compile := hcompile
  field {_ f} _ _ := by
    refine (modify fun r => Quiet.noted ⟨(sameNames_recordField f r).names, ?_⟩ _).leads
    unfold recordField
    split <;> rfl
  discover t := (modify fun r => (quiet_discoverClass _ t r).noted _).leads
  root t := (modify fun r => (quiet_addLayoutRoot t r).noted _).leads
  slot {s _ _} _ _ := by
    intro r i r' h
    obtain ⟨_, -, hs⟩ | ⟨-, hs⟩ := internSlot_cases s r
    all_goals
      rw [hs] at h
      cases h
      exact Quiet.noted ⟨rfl, rfl⟩ _
  fixups _ := (modify fun _ => Quiet.noted ⟨rfl, rfl⟩ _).leads

theorem complete_noted (hcompile : compile.Leads (Noted c))
    {m : CompiledMethod} (hd : c.program.methodDef? m.method = some d) (hbody : d.body = some body)
    (h : complete c compile index m (FrameTypes.of d body m.typeArgs) body.code r = .ok u r') :
    ∃ came warned own, r'.names = r.names ++ came ∧
      r'.warnings.toList = r.warnings.toList ++ (warned ++ own) ∧
      Follows c came warned ∧ Follows c [identity m] own := by
  obtain ⟨profile, maxStack, lowered, chunks, r₁, r₂, -, -, hlower, -, hwide, rfl⟩ := complete_ok h
  obtain ⟨came, warned, hnames₁, hwarnings₁, hfollows⟩ : Noted c r r₁ :=
    Lowering.Allows.lowerBody (allows_noted hcompile) (fun _ _ => trivial) _ _ _ hlower
  rw [Lowering.lowerBody_wide hlower] at hwide
  obtain ⟨hnames₂, hreject, own, hwarnings₂, hwarn⟩ := checkWide_ok hwide
  have hisWide := isWide_eq (x := identity m) hd hbody
  have hown : Follows c [identity m] own :=
    .single hd hbody ((isSome_wide_of_body c.program d body m.typeArgs).trans hisWide.symm) hreject
      hwarn
  have hentry := quiet_modifyMethod
    (f := fun m => { m with profile, maxStack, chunks, sites := lowered.sites, callees :=
      lowered.callees })
    (fun _ => rfl) index r₂
  obtain ⟨f, hf, hdecide⟩ := decideC_eq_modifyMethod c.builtins index body.code
    (r₂.modifyMethod index fun m =>
      { m with profile, maxStack, chunks, sites := lowered.sites, callees := lowered.callees })
  have hrest := growth_quiet.trans hentry (quiet_modifyMethod hf index _)
  rw [← hdecide] at hrest
  refine ⟨came, warned, own, ?_, ?_, hfollows, hown⟩
  · rw [hrest.names, hnames₂, hnames₁]
  · rw [hrest.warnings, hwarnings₂, hwarnings₁, append_assoc]

/-- **A method that is compiled** is held against the policy, with all that it reaches. -/
theorem noted_compileWith (hcompile : compile.Leads (Noted c)) (id : MethodId)
    (typeArgs : List TypeRef) : Leads (Noted c) (compileWith c compile id typeArgs) := by
  intro r index r' h
  obtain ⟨d, hd, ⟨-, rfl⟩ | ⟨-, rfl, body, r₁, slots, hbody, -, hreg, -, hpush, hcomplete⟩⟩ :=
    compileWith_ok h
  · exact (growth_noted c).refl r'
  have hwarnings := register_warnings hreg
  have hnames : r₁.names = r.names ++ [(d.signature c.program typeArgs, id, typeArgs)] := by
    rw [names, hpush, Array.toList_push, map_append]
    rfl
  obtain ⟨came, warned, own, hnames', hwarnings', hfollows, hown⟩ :=
    complete_noted hcompile hd hbody hcomplete
  refine ⟨[(d.signature c.program typeArgs, id, typeArgs)] ++ came, warned ++ own, ?_, ?_,
    (hown.append hfollows).perm perm_append_comm⟩
  · rw [hnames', hnames, append_assoc]
  · rw [hwarnings', hwarnings]

theorem noted_compileWithin (c : BuildContext) : ∀ fuel, Compiler.Leads (compileWithin c fuel) (Noted c)
  | 0, _, _ => leads_throw _
  | n + 1, id, args => noted_compileWith (noted_compileWithin c n) id args

theorem admitsBinding_noted (c : BuildContext) : AdmitsBinding c fun x => Leads (Noted c) x where
  closed := (growth_noted c).closed_leads
  compile := noted_compileWithin c _
  discover t := (modify fun r => (quiet_discoverClass _ t r).noted c).leads
  bind _ _ := (modify fun _ => Quiet.noted ⟨rfl, rfl⟩ c).leads

/-! ## The policy -/

/-- What the policy sees of the methods. Under the strict one, what a method keeps in fewer bits is an
enumeration. Under the one that warns, there is one warning for a method that keeps another narrowed
value, or that one of 64 bits passes through, and no warning else. -/
structure NarrowingsNoted (c : BuildContext) (r : Registry) : Prop where
  reject : c.options.wideValues = .reject → ∀ m ∈ r.methods, ∃ d body,
    c.program.methodDef? m.method = some d ∧ d.body = some body ∧
      ∀ t ∈ storedTypes c.program d body m.typeArgs, c.program.narrows t = true →
        c.program.isEnum t = true
  warn : c.options.wideValues = .warn → ∀ m ∈ r.methods, ∃ d body,
    c.program.methodDef? m.method = some d ∧ d.body = some body ∧
      r.warnings.toList.countP (fun w => (w.code, w.method) == wideWarning m.name) =
        if (∃ t ∈ storedTypes c.program d body m.typeArgs,
            c.program.narrows t = true ∧ c.program.isEnum t = false) ∨
          ∃ i ∈ body.code, (i.op.passing? m.typeArgs).isSome = true
        then 1 else 0
  methods : c.options.wideValues = .warn → ∀ w ∈ r.warnings, w.code = some "D101" →
    ∃ m ∈ r.methods, w.method = some m.name

theorem bringsWide_iff :
    bringsWide p d body typeArgs = true ↔
      (∃ t ∈ storedTypes p d body typeArgs, p.narrows t = true ∧ p.isEnum t = false) ∨
        ∃ i ∈ body.code, (i.op.passing? typeArgs).isSome = true := by
  simp only [bringsWide, Bool.or_eq_true, any_eq_true, Bool.and_eq_true, Bool.not_eq_true',
    Array.mem_toList_iff]

theorem nodup_wideWarnings (h : Named p r) :
    ((r.names.filter (isWide p)).map (wideWarning ·.1)).Nodup := by
  have hnames : ((r.names.filter (isWide p)).map (·.1)).Nodup :=
    h.names_nodup.sublist (filter_sublist.map _)
  have hinj : Function.Injective wideWarning := fun _ _ h => Option.some.inj (congrArg Prod.snd h)
  have := hnames.map hinj
  rwa [map_map] at this

theorem narrowingsNoted_of_noted (h : Noted c {} r) (hnamed : Named c.program r) :
    NarrowingsNoted c r := by
  obtain ⟨came, warned, hnames, hwarnings, hfollows⟩ := h
  obtain rfl : r.names = came := hnames
  obtain rfl : r.warnings.toList = warned := hwarnings
  have hmem : ∀ m ∈ r.methods, identity m ∈ r.names := fun m hm => mem_names.2 ⟨m, hm, rfl⟩
  refine ⟨fun hp m hm => ?_, fun hp m hm => ?_, fun hp w hw hcode => ?_⟩
  · obtain ⟨d, body, hd, hbody⟩ := hfollows.bodies _ (hmem m hm)
    refine ⟨d, body, hd, hbody, fun t ht hnarrow => ?_⟩
    have hnone := hfollows.reject hp _ (hmem m hm)
    rw [isWide_eq hd hbody] at hnone
    by_contra henum
    have hwide := bringsWide_iff.2 (.inl ⟨t, ht, hnarrow, by simpa using henum⟩)
    exact absurd (hwide.symm.trans hnone) (by decide)
  · obtain ⟨d, body, hd, hbody⟩ := hfollows.bodies _ (hmem m hm)
    refine ⟨d, body, hd, hbody, ?_⟩
    have hcount : r.warnings.toList.countP (fun w => (w.code, w.method) == wideWarning m.name) =
        ((r.names.filter (isWide c.program)).map (wideWarning ·.1)).count (wideWarning m.name) := by
      rw [← (hfollows.warn hp).count_eq, count_eq_countP, countP_map]
      rfl
    rw [hcount, (nodup_wideWarnings hnamed).count]
    refine if_congr ?_ rfl rfl
    have hisWide : isWide c.program (identity m) = bringsWide c.program d body m.typeArgs :=
      isWide_eq hd hbody
    rw [← bringsWide_iff, ← hisWide]
    refine ⟨fun hwide => ?_, fun hwide => ?_⟩
    · obtain ⟨x, hx, heq⟩ := mem_map.1 hwide
      obtain ⟨hx, hwide⟩ := mem_filter.1 hx
      obtain ⟨m', hm', rfl⟩ := mem_names.1 hx
      have hname : m'.name = m.name := Option.some.inj (congrArg Prod.snd heq)
      rw [← hnamed.method_unique hm' hm hname]
      exact hwide
    · exact mem_map.2 ⟨identity m, mem_filter.2 ⟨hmem m hm, hwide⟩, rfl⟩
  · have hpair : (w.code, w.method) ∈ (r.names.filter (isWide c.program)).map (wideWarning ·.1) :=
      (hfollows.warn hp).subset (mem_map.2 ⟨w, Array.mem_toList_iff.2 hw, rfl⟩)
    obtain ⟨x, hx, heq⟩ := mem_map.1 hpair
    obtain ⟨m, hm, rfl⟩ := mem_names.1 (mem_of_mem_filter hx)
    exact ⟨m, hm, (congrArg Prod.snd heq).symm⟩

/-- **The policy sees what is narrowed**, but for enumerations: when the entry is compiled, and when
all slots are bound. -/
theorem narrowings_noted {c : BuildContext} {start : MethodRef} {index : Nat} {r : Registry}
    (h : compileEntry c start {} = .ok index r) :
    NarrowingsNoted c r ∧
      ∀ iterations r', bindSlots c r = .ok iterations r' → NarrowingsNoted c r' := by
  have hnoted := (admitsBinding_noted c).compileEntry start _ _ _ h
  have hnamed : Named c.program r :=
    (((admitsBinding_identifies c).compileEntry start).ok h).named (Named.empty _)
  refine ⟨narrowingsNoted_of_noted hnoted hnamed, fun iterations r' hbind => ?_⟩
  exact narrowingsNoted_of_noted
    ((growth_noted c).trans hnoted ((admitsBinding_noted c).bindSlots _ _ _ hbind))
    (((admitsBinding_identifies c).bindSlots.ok hbind).named hnamed)

/-- `Tuner.Tune(Mode)` -/
def tune : MethodRef where
  owner := .named ⟨2⟩ []
  name := "Tune"
  params := [.named ⟨0⟩ []]
  ret := .named ⟨0⟩ []
  hasThis := false

/-- Two methods with 64-bit values: `Cell<Int64>.Put` keeps one in its argument, a field and an element,
and `Tune` keeps an enumeration of them in its frame, a field and an element. -/
def tuner (wideValues : WidePolicy) : BuildContext where
  options := { wideValues }
  program := {
    types := #[
      { name := "Mode", kind := .enumType .i64 },
      { name := "Cell", genericParams := 1, methods := [⟨0⟩]
        fields := [{ name := "value", type := .param 0, isStatic := true }] },
      { name := "Tuner", methods := [⟨1⟩, ⟨2⟩]
        fields := [{ name := "mode", type := .named ⟨0⟩ [], isStatic := true }] }]
    methods := #[
      { name := "Put", declaring := ⟨1⟩, params := [.param 0], isStatic := true
        body := some {
          code := #[{ op := .slot .arguments .load 0 },
            { op := .field true .store ⟨.named ⟨1⟩ [.param 0], "value"⟩ },
            { op := .null }, { op := .const (.i4 0) }, { op := .loadElement (.any (.param 0)) },
            { op := .pop }, { op := .ret }] } },
      { name := "Tune", declaring := ⟨2⟩, params := [.named ⟨0⟩ []], ret := .named ⟨0⟩ []
        isStatic := true
        body := some {
          locals := [.named ⟨0⟩ []]
          code := #[{ op := .slot .arguments .load 0 },
            { op := .field true .store ⟨.named ⟨2⟩ [], "mode"⟩ },
            { op := .null }, { op := .const (.i4 0) },
            { op := .loadElement (.any (.named ⟨0⟩ [])) }, { op := .ret }] } },
      { name := "Main", declaring := ⟨2⟩, isStatic := true
        body := some {
          code := #[{ op := .const (.i4 1) },
            { op := .call false ⟨.named ⟨1⟩ [.primitive .i64], "Put", [.param 0], .void, false⟩ },
            { op := .const (.i4 2) },
            { op := .call false tune },
            { op := .pop }, { op := .ret }] } }] }

/-- `Tuner.Main()` -/
def tunerMain : MethodRef where
  owner := .named ⟨2⟩ []
  name := "Main"
  params := []
  ret := .void
  hasThis := false

/-- The registry after a method of the tuner is compiled. -/
def tuned (wideValues : WidePolicy) (start : MethodRef) : Registry :=
  stateAfter (compileEntry (tuner wideValues) start) {}

/-- The warnings name `Cell<Int64>.Put` and no other method. -/
theorem tuner_narrowings_noted :
    compileEntry (tuner .warn) tunerMain {} = .ok 0 (tuned .warn tunerMain) ∧
      (tuned .warn tunerMain).methods.map (·.name) =
        #["Tuner.Main()", "Cell<Int64>.Put(Int64)", "Tuner.Tune(Mode)"] ∧
      (tuned .warn tunerMain).warnings.map (fun w => (w.code, w.method)) =
        #[wideWarning "Cell<Int64>.Put(Int64)"] ∧
      NarrowingsNoted (tuner .warn) (tuned .warn tunerMain) ∧
      ∀ iterations r', bindSlots (tuner .warn) (tuned .warn tunerMain) = .ok iterations r' →
        NarrowingsNoted (tuner .warn) r' := by
  obtain ⟨h, hmethods, hwarnings⟩ : (compileEntry (tuner .warn) tunerMain).run' {} = some 0 ∧
      (tuned .warn tunerMain).methods.map (·.name) =
        #["Tuner.Main()", "Cell<Int64>.Put(Int64)", "Tuner.Tune(Mode)"] ∧
      (tuned .warn tunerMain).warnings.map (fun w => (w.code, w.method)) =
        #[wideWarning "Cell<Int64>.Put(Int64)"] := by decide +kernel
  exact ⟨ok_of_run' h, hmethods, hwarnings, narrowings_noted (ok_of_run' h)⟩

/-- An argument, a local variable, a result, a field and an element of a 64-bit enumeration are
narrowed. The strict policy lets the method pass, and the other one does not warn. -/
theorem enum_not_noted :
    compileEntry (tuner .reject) tune {} = .ok 0 (tuned .reject tune) ∧
      compileEntry (tuner .warn) tune {} = .ok 0 (tuned .warn tune) ∧
      (tuned .warn tune).warnings = #[] ∧
      ∀ wideValues ∈ [WidePolicy.reject, .warn],
        (tuned wideValues tune).methods.map identity = #[("Tuner.Tune(Mode)", ⟨1⟩, [])] ∧
        ∃ d body, (tuner wideValues).program.methodDef? ⟨1⟩ = some d ∧ d.body = some body ∧
          storedTypes (tuner wideValues).program d body [] = List.replicate 5 (.named ⟨0⟩ []) ∧
          (tuner wideValues).program.narrows (.named ⟨0⟩ []) = true := by
  obtain ⟨hreject, hwarn, hwarnings, hmethods⟩ :
      (compileEntry (tuner .reject) tune).run' {} = some 0 ∧
      (compileEntry (tuner .warn) tune).run' {} = some 0 ∧ (tuned .warn tune).warnings = #[] ∧
      ∀ wideValues ∈ [WidePolicy.reject, .warn], (tuned wideValues tune).methods.map identity =
        #[("Tuner.Tune(Mode)", ⟨1⟩, [])] := by decide +kernel
  exact ⟨ok_of_run' hreject, ok_of_run' hwarn, hwarnings,
    fun wideValues h => ⟨hmethods wideValues h, _, _, rfl, rfl, rfl, rfl⟩⟩

end Registry

end DeviceCode
