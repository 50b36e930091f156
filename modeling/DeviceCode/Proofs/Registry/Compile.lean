import DeviceCode.Proofs.Registry.Growth

/-!
# Compiling methods, step by step

What registering, completing and compiling a method does to the registry: `register_ok`,
`complete_ok` and `compileWith_ok` say what a computation that ended well went through.
`keeps_compileMethod`: compiling a method changes no method that was there before, also where it
fails. `AdmitsBinding` lists the updates that binding the slots makes.
-/

namespace DeviceCode

open Growth

open CompileError

theorem modify_id {α : Type} (xs : Array α) (i : Nat) : xs.modify i id = xs := by
  apply Array.ext_getElem?
  intro j
  rw [Array.getElem?_modify]
  split <;> simp

variable {index : Nat} {c : BuildContext} {p : Program} {r r' : Registry} {id : MethodId}
  {typeArgs : List TypeRef} {compile : Compiler} {body : Body} {m : MethodDef}

namespace Registry

/-! ## What is kept -/

/-- What the signature of a method stands for. -/
def identity (m : CompiledMethod) : String × MethodId × List TypeRef := (m.name, m.method, m.typeArgs)

/-- The slot of the object that the method runs on. -/
def receiver (isStatic : Bool) : Except CompileError SlotList :=
  if isStatic then .ok {} else SlotList.push {} .reference

/-- The slots of the arguments and of the local variables, and the storage of the result. -/
def frameSlots (p : Program) (isStatic : Bool) (types : FrameTypes) :
    RegistryM (SlotList × SlotList × Option Storage) := do
  let first ← MonadExcept.ofExcept (receiver isStatic)
  let args ← types.params.foldlM (addSlot p) first
  let locals ← types.locals.foldlM (addSlot p) {}
  let ret ← resultStorage p types.ret
  return (args, locals, ret)

/-- The entry of a method whose body is not lowered. -/
def newEntry (id : MethodId) (m : MethodDef) (body : Body) (typeArgs : List TypeRef) (name : String)
    (slots : SlotList × SlotList × Option Storage) : CompiledMethod where
  name := name
  method := id
  typeArgs := typeArgs
  args := slots.1
  locals := slots.2.1
  ret := slots.2.2
  lines := body.code.map (·.line)
  requiresNative := m.requiresNative

def addMethod (m : CompiledMethod) (r : Registry) : Registry := { r with methods := r.methods.push m }

def addWarning (w : Diagnostic) (r : Registry) : Registry := { r with warnings := r.warnings.push w }

theorem register_eq (p : Program) (id : MethodId) (m : MethodDef) (body : Body)
    (typeArgs : List TypeRef) (name : String) : register p id m body typeArgs name =
      frameSlots p m.isStatic (FrameTypes.of m body typeArgs) >>= fun slots => get >>= fun r =>
        modify (addMethod (newEntry id m body typeArgs name slots)) >>= fun _ =>
          pure r.methods.size := by
  unfold register frameSlots receiver
  cases m.isStatic <;> simp only [bind_assoc, pure_bind] <;> rfl

/-- Deciding on a plan changes the entry of the method, and not what its signature stands for. -/
theorem decideC_eq_modifyMethod (builtins : BuiltinTable) (index : Nat) (code : Array Instruction)
    (r : Registry) : ∃ f : CompiledMethod → CompiledMethod, (∀ m, identity (f m) = identity m) ∧
      decideC builtins index code r = r.modifyMethod index f := by
  unfold decideC
  split
  · exact ⟨id, fun _ => rfl, by rw [modifyMethod, modify_id]⟩
  · split
    · rename_i plan _
      exact ⟨fun m => { m with cStatus := .planned plan }, fun _ => rfl, rfl⟩
    · refine ⟨_, fun m => ?_, rfl⟩
      split <;> rfl

section
variable {E : CompileError → Prop} [CompileError.HoldsOrdinary E]
  {Φ : {α : Type} → RegistryM α → RegistryM α → Prop} (h : Parallel E Φ)
  {u v : Compiler}

theorem decides_receiver (isStatic : Bool) : Decides E (receiver isStatic) := by
  unfold receiver
  split
  · exact decides_ok _
  · exact decides_push _ _

include h

variable {type : TypeRef} {code : Array Instruction} {types : FrameTypes} {name : String}

theorem parallel_addSlot (root : Doubly Φ (modify (addLayoutRoot type))) (area : SlotList) :
    Doubly Φ (addSlot p area type) := by
  refine h.bind (h.ofExcept (decides_storage p type)) fun storage => ?_
  split
  · exact h.bind root fun _ => h.ofExcept (decides_push _ _)
  · exact h.ofExcept (decides_push _ _)

theorem parallel_resultStorage (root : Doubly Φ (modify (addLayoutRoot type))) :
    Doubly Φ (resultStorage p type) := by
  refine h.bind (h.ofExcept (decides_result p type)) fun storage => ?_
  split
  · exact h.bind root fun _ => h.pure _
  · exact h.pure _

theorem parallel_frameSlots (isStatic : Bool)
    (root : ∀ t ∈ types.params ++ types.locals ++ [types.ret],
      Doubly Φ (modify (addLayoutRoot t))) :
    Doubly Φ (frameSlots p isStatic types) := by
  refine h.bind (h.ofExcept (decides_receiver isStatic)) fun first => ?_
  refine h.bind (h.foldlM (fun area t ht => parallel_addSlot h (root t (by simp [ht])) area) first)
    fun args => ?_
  refine h.bind (h.foldlM (fun area t ht => parallel_addSlot h (root t (by simp [ht])) area) {})
    fun locals => ?_
  exact h.bind (parallel_resultStorage h (root _ (by simp))) fun ret => h.pure _

theorem parallel_register (root : ∀ t, Doubly Φ (modify (addLayoutRoot t)))
    (push : ∀ e, Doubly Φ (modify (addMethod e))) :
    Doubly Φ (register p id m body typeArgs name) := by
  rw [register_eq]
  refine h.bind (parallel_frameSlots h _ fun t _ => root t) fun slots => ?_
  exact h.bind h.get fun r => h.bind (push _) fun _ => h.pure _

theorem parallel_checkWide (warning : ∀ w, Doubly Φ (modify (addWarning w))) (policy : WidePolicy)
    (name : String) (wide : Option Primitive) :
    Doubly Φ (checkWide policy name wide) := by
  unfold checkWide
  split
  · exact h.pure _
  · split
    · exact h.pure _
    · exact warning _
    · exact h.throw (ordinary rfl)

omit [CompileError.HoldsOrdinary E] in
theorem parallel_decideC
    (entry : ∀ f : CompiledMethod → CompiledMethod, (∀ m, identity (f m) = identity m) →
      Doubly Φ (modify (modifyMethod index f))) (builtins : BuiltinTable) (code : Array Instruction) :
    Doubly Φ (modify (decideC builtins index code)) := by
  choose f hf hdecide using decideC_eq_modifyMethod builtins index code
  have hsplit : (modify (decideC builtins index code) : RegistryM PUnit) =
      get >>= fun r => modify (modifyMethod index (f r)) :=
    funext fun r => congrArg (EStateM.Result.ok PUnit.unit) (hdecide r)
  rw [hsplit]
  exact h.bind h.get fun r => entry (f r) (hf r)

/-- Completing the entry of a method lowers the body and then changes that entry only. -/
theorem parallel_complete {m : CompiledMethod}
    (lower : ∀ l : Lowering, l.context = c → l.compile = u → l.typeArgs = m.typeArgs →
      l.code = code → Φ l.lowerBody (l.via v).lowerBody)
    (warning : ∀ w, Doubly Φ (modify (addWarning w)))
    (entry : ∀ f : CompiledMethod → CompiledMethod, (∀ m, identity (f m) = identity m) →
      Doubly Φ (modify (modifyMethod index f))) (types : FrameTypes) :
    Φ (complete c u index m types code) (complete c v index m types code) := by
  refine h.bind (h.ofExcept (decides_profile _ _ _)) fun profile => ?_
  split
  · exact h.throw (ordinary rfl)
  · refine h.bind (lower _ rfl rfl rfl rfl) fun body => ?_
    refine h.bind (h.ofExcept (Lowering.decides_assemble _ body)) fun chunks => ?_
    refine h.bind (parallel_checkWide h warning _ _ _) fun _ => ?_
    exact h.bind (entry _ fun _ => rfl) fun _ => parallel_decideC h entry _ _

theorem parallel_compileWithin (bound : E .unboundedInstantiation)
    (root : ∀ t, Doubly Φ (modify (addLayoutRoot t))) (push : ∀ e, Doubly Φ (modify (addMethod e)))
    (lower : ∀ l : Lowering, l.context = c → (∀ id args, Doubly Φ (l.compile id args)) →
      Doubly Φ l.lowerBody) (warning : ∀ w, Doubly Φ (modify (addWarning w)))
    (entry : ∀ index f, Doubly Φ (modify (modifyMethod index f))) :
    ∀ (n : Nat) (id : MethodId) (args : List TypeRef),
      Doubly Φ (compileWithin c n id args)
  | 0, _, _ => h.throw bound
  | n + 1, id, args => by
    have ih := parallel_compileWithin bound root push lower warning entry n
    rw [compileWithin]
    unfold compileWith
    split
    · exact h.throw (ordinary rfl)
    · refine h.bind h.get fun r => ?_
      split
      · exact h.pure _
      · split
        · exact h.throw (ordinary rfl)
        · refine h.bind (h.ofExcept (decides_checkSupported _ _)) fun _ => ?_
          refine h.bind (parallel_register h root push) fun index => h.bind h.get fun r => ?_
          split
          · exact h.bind (h.pure _) fun _ => h.pure _
          · refine h.bind (parallel_complete h (fun l hl hcompile _ _ => ?_) warning
              (fun f _ => entry index f) _) fun _ => h.pure _
            rw [← hcompile] at ih ⊢
            exact lower l hl ih

end

section
variable {R : Registry → Registry → Prop} (g : Growth R)
include g

theorem keeps_register {Q : Registry → Registry → Prop} (sub : ∀ r s, R r s → Q r s)
    (lead : ∀ r s t, R r s → Q s t → Q r t) (root : ∀ t r, R r (r.addLayoutRoot t))
    (p : Program) (id : MethodId) (m : MethodDef) (body : Body) (typeArgs : List TypeRef)
    (name : String)
    (push : ∀ e r, identity e = (name, id, typeArgs) → Q r { r with methods := r.methods.push e }) :
    Keeps Q (register p id m body typeArgs name) := by
  rw [register_eq]
  refine Keeps.bind_lead sub lead (parallel_frameSlots g.keeps_parallel _ fun t _ =>
    modify (root t)) fun _ slots r _ => ?_
  exact push (newEntry id m body typeArgs name slots) r rfl

theorem keeps_checkWide (warnings : ∀ w r, R r { r with warnings := w }) (policy : WidePolicy)
    (name : String) (p : Option Primitive) : Keeps R (checkWide policy name p) :=
  parallel_checkWide g.keeps_parallel (fun _ => modify fun r => warnings _ r) policy name p

theorem keeps_complete
    (lower : ∀ l : Lowering, l.context = c → l.compile = compile → Keeps R l.lowerBody)
    (warnings : ∀ w r, R r { r with warnings := w })
    (entry : ∀ f : CompiledMethod → CompiledMethod, (∀ m, identity (f m) = identity m) →
      ∀ r, R r (r.modifyMethod index f))
    (m : CompiledMethod) (types : FrameTypes) (code : Array Instruction) :
    Keeps R (complete c compile index m types code) :=
  parallel_complete g.keeps_parallel (v := compile) (fun l hl hcompile _ _ => lower l hl hcompile)
    (fun _ => modify fun r => warnings _ r) (fun f hf => modify (entry f hf)) types

end

/-! ## Taking an index -/

theorem methods_addLayoutRoot (t : TypeRef) (r : Registry) :
    (r.addLayoutRoot t).methods = r.methods := by
  unfold addLayoutRoot
  split <;> rfl

theorem addSlot_ok {area area' : SlotList} (h : addSlot p area type r = .ok area' r') :
    (∃ s, Storage.ofType p type = .ok s ∧ area.push s = .ok area') ∧ r'.methods = r.methods := by
  obtain ⟨s, hs, h⟩ := state_ofExcept_bind_ok.1 h
  split at h
  · obtain ⟨_, r₂, hr, h⟩ := state_bind_ok.1 h
    rw [state_modify_ok] at hr
    rw [state_ofExcept_ok] at h
    refine ⟨⟨s, hs, h.1⟩, ?_⟩
    rw [← h.2, ← hr, methods_addLayoutRoot]
  · rw [state_ofExcept_ok] at h
    exact ⟨⟨s, hs, h.1⟩, by rw [h.2]⟩

theorem addSlots_ok : ∀ {types : List TypeRef} {area area' : SlotList}
    {r r' : Registry}, types.foldlM (addSlot p) area r = .ok area' r' →
    (∃ ss, List.Forall₂ (fun t s => Storage.ofType p t = .ok s) types ss ∧
      ss.foldlM SlotList.push area = .ok area') ∧ r'.methods = r.methods
  | [], area, area', r, r', h => by
    obtain ⟨rfl, rfl⟩ := h
    exact ⟨⟨[], .nil, rfl⟩, rfl⟩
  | t :: types, area, area', r, r', h => by
    obtain ⟨area₁, r₁, h₁, h⟩ := state_bind_ok.1 h
    obtain ⟨⟨s, hs, hpush⟩, hm⟩ := addSlot_ok h₁
    obtain ⟨⟨ss, hss, hfold⟩, hm'⟩ := addSlots_ok h
    refine ⟨⟨s :: ss, .cons hs hss, ?_⟩, hm'.trans hm⟩
    exact except_bind_ok.2 ⟨area₁, hpush, hfold⟩

theorem resultStorage_ok {ret : Option Storage} (h : resultStorage p type r = .ok ret r') :
    Storage.ofResult p type = .ok ret ∧ r'.methods = r.methods := by
  obtain ⟨s, hs, h⟩ := state_ofExcept_bind_ok.1 h
  split at h
  · obtain ⟨_, r₂, hr, h⟩ := state_bind_ok.1 h
    rw [state_modify_ok] at hr
    obtain ⟨rfl, rfl⟩ := h
    exact ⟨hs, by rw [← hr, methods_addLayoutRoot]⟩
  · obtain ⟨rfl, rfl⟩ := h
    exact ⟨hs, rfl⟩

/-- The slots of the arguments and of the local variables of a method, and its result. -/
structure FrameSlots (p : Program) (m : MethodDef) (body : Body) (typeArgs : List TypeRef)
    (args locals : SlotList) (ret : Option Storage) : Prop where
  args : ∃ ss, List.Forall₂ (fun t s => Storage.ofType p t = .ok s)
      (FrameTypes.of m body typeArgs).params ss ∧
    ((if m.isStatic then [] else [Storage.reference]) ++ ss).foldlM SlotList.push {} = .ok args
  locals : ∃ ss, List.Forall₂ (fun t s => Storage.ofType p t = .ok s)
      (FrameTypes.of m body typeArgs).locals ss ∧ ss.foldlM SlotList.push {} = .ok locals
  ret : Storage.ofResult p (FrameTypes.of m body typeArgs).ret = .ok ret

theorem frameSlots_ok {slots : SlotList × SlotList × Option Storage}
    (h : frameSlots p m.isStatic (FrameTypes.of m body typeArgs) r = .ok slots r') :
    FrameSlots p m body typeArgs slots.1 slots.2.1 slots.2.2 ∧ r'.methods = r.methods := by
  obtain ⟨first, hfirst, h⟩ := state_ofExcept_bind_ok.1 h
  obtain ⟨args, r₁, h₁, h⟩ := state_bind_ok.1 h
  obtain ⟨locals, r₂, h₂, h⟩ := state_bind_ok.1 h
  obtain ⟨ret, r₃, h₃, h⟩ := state_bind_ok.1 h
  obtain ⟨rfl, rfl⟩ := state_pure_ok.1 h
  obtain ⟨⟨ss, hss, hargs⟩, e₁⟩ := addSlots_ok h₁
  obtain ⟨⟨ls, hls, hlocals⟩, e₂⟩ := addSlots_ok h₂
  obtain ⟨hret, e₃⟩ := resultStorage_ok h₃
  refine ⟨⟨⟨ss, hss, ?_⟩, ⟨ls, hls, hlocals⟩, hret⟩, by rw [e₃, e₂, e₁]⟩
  rw [List.foldlM_append]
  refine except_bind_ok.2 ⟨first, ?_, hargs⟩
  unfold receiver at hfirst
  split at hfirst
  · rename_i hs
    simpa [hs] using hfirst
  · rename_i hs
    simpa [hs] using hfirst

/-- **A method takes the next index**: its entry is the last one, and its body is not lowered. -/
theorem register_ok (h : register p id m body typeArgs name r = .ok index r') :
    index = r.methods.size ∧ ∃ slots : SlotList × SlotList × Option Storage,
      FrameSlots p m body typeArgs slots.1 slots.2.1 slots.2.2 ∧
      r'.methods = r.methods.push (newEntry id m body typeArgs name slots) := by
  rw [register_eq] at h
  obtain ⟨slots, r₁, hframe, h⟩ := state_bind_ok.1 h
  obtain ⟨hslots, hsame⟩ := frameSlots_ok hframe
  obtain ⟨rfl, rfl⟩ := state_pure_ok.1 h
  exact ⟨by rw [hsame], slots, hslots, by rw [addMethod, hsame]⟩

/-! ## Compiling one method -/

/-- A method that is completed has a profile, lowered code and chunks; its entry is then filled in
and its plan is decided. -/
theorem complete_ok {m : CompiledMethod} {u : Unit}
    (h : complete c compile index m types code r = .ok u r') :
    let lowering : Lowering := {
      context := c, compile, index, name := m.name, typeArgs := m.typeArgs
      args := m.args, locals := m.locals, code }
    ∃ profile maxStack body chunks r₁ r₂,
      StackProfile.analyze code (fun _ op => op.effect (if m.ret.isSome then 1 else 0)) =
        .ok profile ∧
      word16? profile.maxDepth = some maxStack ∧
      lowering.lowerBody r = .ok body r₁ ∧
      lowering.assemble body = .ok chunks ∧
      checkWide c.options.wideValues m.name (types.wide? <|> body.wide) r₁ = .ok () r₂ ∧
      r' = decideC c.builtins index code (r₂.modifyMethod index fun m =>
        { m with profile, maxStack, chunks, sites := body.sites, callees := body.callees }) := by
  obtain ⟨profile, hprofile, h⟩ := state_ofExcept_bind_ok.1 h
  rw [except_mapError_ok] at hprofile
  cases hmax : word16? profile.maxDepth with
  | none => simp [hmax] at h
  | some maxStack =>
    simp only [hmax] at h
    obtain ⟨body, r₁, hb, h⟩ := state_bind_ok.1 h
    obtain ⟨chunks, hchunks, h⟩ := state_ofExcept_bind_ok.1 h
    obtain ⟨_, r₂, hw, h⟩ := state_bind_ok.1 h
    obtain ⟨_, r₃, hm, h⟩ := state_bind_ok.1 h
    rw [state_modify_ok] at hm h
    refine ⟨profile, maxStack, body, chunks, r₁, r₂, hprofile, hmax, hb, hchunks, hw, ?_⟩
    rw [← h, ← hm]

section

theorem compileWith_unknown (hm : c.program.methodDef? id = none) (r : Registry) :
    compileWith c compile id typeArgs r =
      .error (.unresolvableReference "method" ("#" ++ toString id.index)) r := by
  simp only [compileWith, hm]
  rfl

theorem compileWith_known (hm : c.program.methodDef? id = some m)
    (hi : r.methodIndex? (m.signature c.program typeArgs) = some index) :
    compileWith c compile id typeArgs r = .ok index r := by
  simp only [compileWith, hm, state_bind_ok, state_get_ok]
  exact ⟨r, r, ⟨rfl, rfl⟩, by simp [hi]⟩

section
variable (hm : c.program.methodDef? id = some m)
  (hi : r.methodIndex? (m.signature c.program typeArgs) = none)
include hm hi

theorem compileWith_bodiless (hb : m.body = none) : compileWith c compile id typeArgs r =
    .error (.unresolvableReference "method body" (m.signature c.program typeArgs)) r := by
  simp only [compileWith, hm]
  rw [state_bind_of_ok (a := r) (t := r) (by simp)]
  simp only [hi, hb]
  rfl

variable (compile) in
theorem compileWith_new (hb : m.body = some body) : ∃ k : Nat → RegistryM Nat,
    compileWith c compile id typeArgs r =
      ((MonadExcept.ofExcept (checkSupported (m.signature c.program typeArgs) body.code) :
        RegistryM Unit) >>= fun _ => register c.program id m body typeArgs
          (m.signature c.program typeArgs) >>= k) r ∧
    ∀ index t entry, t.methods[index]? = some entry →
      k index t = (complete c compile index entry (FrameTypes.of m body typeArgs) body.code >>=
        fun _ => pure index) t := by
  simp only [compileWith, hm]
  rw [state_bind_of_ok (a := r) (t := r) (by simp)]
  simp only [hi, hb]
  refine ⟨_, rfl, fun index t entry hentry => ?_⟩
  rw [state_bind_of_ok (a := t) (t := t) (by simp)]
  simp only [hentry]

end

end

theorem compileWith_ok (h : compileWith c compile id typeArgs r = .ok index r') :
    ∃ m, c.program.methodDef? id = some m ∧
      (r.methodIndex? (m.signature c.program typeArgs) = some index ∧ r' = r ∨
        r.methodIndex? (m.signature c.program typeArgs) = none ∧ index = r.methods.size ∧
          ∃ body r₁ slots, m.body = some body ∧
            checkSupported (m.signature c.program typeArgs) body.code = .ok () ∧
            register c.program id m body typeArgs (m.signature c.program typeArgs) r =
              .ok index r₁ ∧
            FrameSlots c.program m body typeArgs slots.1 slots.2.1 slots.2.2 ∧
            r₁.methods =
              r.methods.push (newEntry id m body typeArgs (m.signature c.program typeArgs) slots) ∧
            complete c compile index
              (newEntry id m body typeArgs (m.signature c.program typeArgs) slots)
              (FrameTypes.of m body typeArgs) body.code r₁ = .ok () r') := by
  cases hm : c.program.methodDef? id with
  | none =>
    rw [compileWith_unknown hm] at h
    cases h
  | some m =>
    refine ⟨m, rfl, ?_⟩
    cases hi : r.methodIndex? (m.signature c.program typeArgs) with
    | some i =>
      rw [compileWith_known hm hi] at h
      cases h
      exact .inl ⟨rfl, rfl⟩
    | none =>
      cases hb : m.body with
      | none =>
        rw [compileWith_bodiless hm hi hb] at h
        cases h
      | some body =>
        obtain ⟨k, hk, hcomplete⟩ := compileWith_new compile hm hi hb
        rw [hk] at h
        obtain ⟨_, hsup, h⟩ := state_ofExcept_bind_ok.1 h
        obtain ⟨i, r₁, hreg, h⟩ := state_bind_ok.1 h
        obtain ⟨rfl, slots, hslots, hpush⟩ := register_ok hreg
        rw [hcomplete _ _ _ (hpush ▸ Array.getElem?_push_size)] at h
        obtain ⟨_, r₂, hc, h⟩ := state_bind_ok.1 h
        obtain ⟨rfl, rfl⟩ := state_pure_ok.1 h
        exact .inr ⟨rfl, rfl, body, r₁, slots, rfl, hsup, hreg, hslots, hpush, hc⟩

/-- What compiling a method leaves, also where it fails: all is as it was, or the method took an
index and was completed as far as it went. -/
theorem stateAfter_compileWith (c : BuildContext)
    (compile : Compiler) (id : MethodId) (typeArgs : List TypeRef) (r : Registry) :
    stateAfter (compileWith c compile id typeArgs) r = r ∨
      ∃ m body, c.program.methodDef? id = some m ∧ m.body = some body ∧
        r.methodIndex? (m.signature c.program typeArgs) = none ∧
        let registered := register c.program id m body typeArgs (m.signature c.program typeArgs)
        ((∃ e r₁, registered r = .error e r₁ ∧
            stateAfter (compileWith c compile id typeArgs) r = r₁) ∨
          ∃ r₁ entry, registered r = .ok r.methods.size r₁ ∧
            stateAfter (compileWith c compile id typeArgs) r =
              stateAfter (complete c compile r.methods.size entry
                (FrameTypes.of m body typeArgs) body.code) r₁) := by
  cases hm : c.program.methodDef? id with
  | none => exact .inl (stateAfter_error (compileWith_unknown hm r))
  | some m =>
    cases hi : r.methodIndex? (m.signature c.program typeArgs) with
    | some i => exact .inl (stateAfter_ok (compileWith_known hm hi))
    | none =>
      cases hb : m.body with
      | none => exact .inl (stateAfter_error (compileWith_bodiless hm hi hb))
      | some body =>
        obtain ⟨k, hk, hcomplete⟩ := compileWith_new compile hm hi hb
        rw [stateAfter, hk, ← stateAfter]
        cases hs : checkSupported (m.signature c.program typeArgs) body.code with
        | error e => exact .inl rfl
        | ok u =>
          refine .inr ⟨m, body, rfl, hb, hi, ?_⟩
          dsimp only
          rw [stateAfter_bind_ok (state_ofExcept_ok.2 ⟨rfl, rfl⟩)]
          cases hr : register c.program id m body typeArgs (m.signature c.program typeArgs) r with
          | error e r₁ => exact .inl ⟨e, r₁, rfl, stateAfter_bind_error hr⟩
          | ok index r₁ =>
            obtain ⟨rfl, slots, -, hpush⟩ := register_ok hr
            have hentry := hpush ▸ Array.getElem?_push_size
            have hrest := stateAfter_bind_ok (f := k) hr
            rw [stateAfter, stateAfter, hcomplete _ _ _ hentry, ← stateAfter, ← stateAfter,
              stateAfter_bind_pure] at hrest
            exact .inr ⟨r₁, _, rfl, hrest⟩

/-! ## Methods that were there before -/

theorem admits_extends {l : Lowering} (h : Compiler.Keeps l.compile Extends) :
    l.Admits Extends where
  growth := growth_extends
  compile := h
  field := extends_recordField
  discover := extends_discoverClass l.program
  root := extends_addLayoutRoot
  slot := fun _ _ => keeps_internSlot _
  fixups := extends_fixups

/-- Once there are `n` methods, they stay as they are. -/
def GrowsFrom (n : Nat) (r r' : Registry) : Prop := n ≤ r.methods.size → Grows n r r'

theorem growth_growsFrom (n : Nat) : Growth (GrowsFrom n) where
  refl r _ := Grows.refl n r
  trans h₁ h₂ hn := (h₁ hn).trans (h₂ (Nat.le_trans hn (h₁ hn).size))

theorem keeps_extends_register (p : Program) (id : MethodId) (m : MethodDef) (body : Body)
    (typeArgs : List TypeRef) (name : String) :
    Keeps Extends (register p id m body typeArgs name) :=
  keeps_register growth_extends (fun _ _ h => h) (fun _ _ _ => growth_extends.trans)
    extends_addLayoutRoot p id m body typeArgs name fun e r _ => extends_push e r

theorem keeps_growsFrom_complete (hc : compile.Keeps Extends) (index : Nat) (m : CompiledMethod)
    (types : FrameTypes) (code : Array Instruction) :
    Keeps (GrowsFrom index) (complete c compile index m types code) := by
  refine keeps_complete (growth_growsFrom index) (fun l _ hl r hn => ?_) (fun w r hn => ?_)
    (fun f _ r _ => grows_modifyMethod (Nat.le_refl index) f r) m types code
  · exact Extends.grows ((admits_extends (l := l) (hl ▸ hc)).lowerBody r) hn
  · exact Extends.grows (extends_warnings w r) hn

/-- **A method that is compiled** changes no method that was there before. -/
theorem keeps_compileWith (hc : compile.Keeps Extends) (id : MethodId) (typeArgs : List TypeRef) :
    Keeps Extends (compileWith c compile id typeArgs) := by
  intro r
  obtain h | ⟨m, body, -, -, -, h⟩ := stateAfter_compileWith c compile id typeArgs r
  · rw [h]
    exact growth_extends.refl r
  · have hreg := keeps_extends_register c.program id m body typeArgs
      (m.signature c.program typeArgs) r
    obtain ⟨e, r₁, hr, h⟩ | ⟨r₁, entry, hr, h⟩ := h
    · rw [stateAfter_error hr] at hreg
      rw [h]
      exact hreg
    · -- the new method has the index that the size of the registry was
      rw [stateAfter_ok hr] at hreg
      rw [h]
      exact hreg.trans (keeps_growsFrom_complete hc _ entry _ _ r₁ hreg.size)

theorem keeps_compileWithin (c : BuildContext) :
    ∀ fuel, Compiler.Keeps (compileWithin c fuel) Extends
  | 0, _, _ => growth_extends.throw _
  | n + 1, id, args => keeps_compileWith (keeps_compileWithin c n) id args

/-- **Compiling a method** adds to the registry and changes no method that was there before. -/
theorem keeps_compileMethod (c : BuildContext) (id : MethodId) (args : List TypeRef) :
    Keeps Extends (compileMethod c id args) := keeps_compileWithin c _ id args

/-- **A relation that looks at no method** and that lowering keeps is kept by compiling. -/
theorem keeps_compileWithin_of {R : Registry → Registry → Prop} (g : Growth R)
    (methods : ∀ methods r, R r { r with methods }) (warnings : ∀ w r, R r { r with warnings := w })
    (root : ∀ t r, R r (r.addLayoutRoot t))
    (admits : ∀ l : Lowering, l.context = c → Compiler.Keeps l.compile R →
      l.Admits R) :
    ∀ fuel, Compiler.Keeps (compileWithin c fuel) R :=
  parallel_compileWithin g.keeps_parallel trivial (fun t => modify (root t))
    (fun _ => modify fun _ => methods _ _)
    (fun l hl hcompile => (admits l hl hcompile).lowerBody)
    (fun _ => modify fun _ => warnings _ _) (fun _ _ => modify fun _ => methods _ _)

/-! ## Binding -/

/-- The slot, bound to one more class. -/
def bindTo (implementor : String × Nat) (s : VirtualSlot) : VirtualSlot :=
  { s with implementors := s.implementors ++ [implementor] }

def bindClass (index : Nat) (implementor : String × Nat) (r : Registry) : Registry :=
  { r with slots := r.slots.modify index (bindTo implementor) }

theorem unbound_modify (slots : Array VirtualSlot) (index : Nat) (implementor : String × Nat) :
    (slots.modify index (bindTo implementor)).toList.map unbound = slots.toList.map unbound := by
  apply List.ext_getElem?
  intro i
  simp only [List.getElem?_map, Array.getElem?_toList, Array.getElem?_modify]
  split
  · cases slots[i]? <;> rfl
  · rfl

theorem extends_bindClass (index : Nat) (implementor : String × Nat) (r : Registry) :
    Extends r (bindClass index implementor r) :=
  { Grows.refl r.methods.size r with
    slots := by
      simp only [bindClass, unbound_modify]
      exact List.prefix_rfl }

section
variable {E : CompileError → Prop} [CompileError.HoldsOrdinary E]
  {Φ : {α : Type} → RegistryM α → RegistryM α → Prop} (h : Parallel E Φ)
  (hcompile : ∀ id args, Doubly Φ (compileMethod c id args))
  (bind : ∀ index implementor,
    Doubly Φ (modify (bindClass index implementor)))
include h hcompile bind

theorem parallel_bind (s k : Nat) : Doubly Φ (Registry.bind c s k) := by
  refine h.bind h.get fun r => h.bind h.get fun r' => ?_
  split
  · refine h.bind (h.ofExcept (VirtualSlot.decides_implementation _ _ _)) fun found => ?_
    split
    · exact h.pure _
    · split
      · exact h.pure _
      · exact h.bind (hcompile _ _) fun _ => bind _ _
  · exact h.pure _

theorem parallel_bindPairs (limit : E (.limitExceeded "link iterations" c.options.maxLinkIterations)) :
    ∀ (bound : Nat) (q : BindQueue), Doubly Φ (bindPairs c bound q)
  | 0, q => by
    refine h.bind h.get fun r => ?_
    split
    · exact h.pure _
    · exact h.throw limit
  | n + 1, q => by
    refine h.bind h.get fun r => ?_
    dsimp only
    split
    · exact h.pure _
    · exact h.bind (parallel_bind h hcompile bind _ _) fun _ => parallel_bindPairs limit n _

/-- What holds of compiling a method and of binding a class holds of binding all slots. -/
theorem parallel_bindSlots (limit : E (.limitExceeded "link iterations" c.options.maxLinkIterations)) :
    Doubly Φ (bindSlots c) := by
  refine h.bind (parallel_bindPairs h hcompile bind limit _ _) fun remaining => h.bind h.get fun r => ?_
  split
  · exact h.pure _
  · exact h.bind (h.ofExcept (VirtualSlot.decides_candidates _ _)) fun _ =>
      h.throw (ordinary rfl)

end

/-- The property holds of compiling a method, finding a class and binding a class to a slot. -/
structure AdmitsBinding (c : BuildContext) (Φ : {α : Type} → RegistryM α → Prop) : Prop where
  closed : Closed Φ
  compile : ∀ id args, Φ (compileMethod c id args)
  discover : ∀ t, Φ (modify (discoverClass c.program t))
  bind : ∀ index implementor, Φ (modify (bindClass index implementor))

namespace AdmitsBinding

variable {Φ : {α : Type} → RegistryM α → Prop} (h : AdmitsBinding c Φ)
include h

theorem compileEntry (entry : MethodRef) : Φ (compileEntry c entry) := by
  refine h.closed.bind (h.closed.ofExcept _) fun resolved => ?_
  split
  · exact h.compile _ _
  · exact h.closed.bind (h.discover _) fun _ => h.compile _ _

theorem bindPair (slotIndex classIndex : Nat) : Φ (Registry.bind c slotIndex classIndex) :=
  parallel_bind (h.closed.parallel fun _ => True) h.compile h.bind _ _

theorem bindSlots : Φ (bindSlots c) :=
  parallel_bindSlots (h.closed.parallel fun _ => True) h.compile h.bind trivial

end AdmitsBinding

end Registry

end DeviceCode
