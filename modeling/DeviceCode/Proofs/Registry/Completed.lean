import DeviceCode.Proofs.Registry.Compile
import DeviceCode.Proofs.Registry.Lowered

/-!
# Completed methods

`Registry.Completed`: what the entry of a method holds once its body is lowered. It has a frame, a
profile, the pieces of its instructions, their chunks, and its open operands are recorded for the
link. Main statement: `completed_of_bound`, when the entry is compiled and all slots are bound, every
method of the registry is completed.

Compiling a method registers it before its body is lowered, and compiles what it calls in between.
`Registry.Adds` is what holds from the outside: the methods that were there stay as they are, those
that came are completed, and open operands were recorded for these only.
-/

namespace DeviceCode

open Lowering.LoweredBody

open List

variable {a b : Array CompiledMethod} {c : BuildContext} {r r' : Registry} {index i : Nat}
  {items : List (Instruction × Nat)} {ops : List LoweredOp} {m : CompiledMethod}
  {typeArgs : List TypeRef} {u : Unit} {compile : Compiler}
  {types : FrameTypes}

namespace Registry

/-! ## The entry of a method -/

/-- What callers see of a method. -/
def frame (m : CompiledMethod) : String × SlotList × SlotList × Option Storage :=
  (m.name, m.args, m.locals, m.ret)

/-- The methods of `a` are those of `b` with the same indices, as far as callers see. -/
def Framed (a b : Array CompiledMethod) : Prop :=
  ∀ (k : Nat) e, a[k]? = some e → ∃ e', b[k]? = some e' ∧ frame e' = frame e

theorem Framed.trans {c : Array CompiledMethod} (h₁ : Framed a b) (h₂ : Framed b c) :
    Framed a c := by
  intro k e he
  obtain ⟨e₁, he₁, hf₁⟩ := h₁ k e he
  obtain ⟨e₂, he₂, hf₂⟩ := h₂ k e₁ he₁
  exact ⟨e₂, he₂, hf₂.trans hf₁⟩

theorem Framed.size_le (h : Framed a b) : a.size ≤ b.size := by
  apply Nat.le_of_not_lt
  intro hlt
  obtain ⟨e, he, -⟩ := h b.size a[b.size] (Array.getElem?_eq_getElem hlt)
  simp at he

theorem Extends.framed (h : Extends r r') : Framed r.methods r'.methods :=
  fun _ e he => ⟨e, h.getElem? he, rfl⟩

theorem framed_of_entries {e : CompiledMethod} (hm : a[index]? = some m) (hf : frame e = frame m)
    (h : ∀ i : Nat, b[i]? = if i = index then some e else a[i]?) : Framed a b := by
  intro k e' he
  rw [h]
  split
  · rename_i hk
    cases hm.symm.trans (hk ▸ he)
    exact ⟨e, rfl, hf⟩
  · exact ⟨e', he, rfl⟩

theorem getElem?_modifyMethod (f : CompiledMethod → CompiledMethod) (hm : r.methods[index]? = some m)
    (i : Nat) : (r.modifyMethod index f).methods[i]? =
      if i = index then some (f m) else r.methods[i]? := by
  rw [modifyMethod, Array.getElem?_modify]
  by_cases hi : i = index
  · rw [if_pos hi.symm, if_pos hi, hi, hm]
    rfl
  · rw [if_neg (Ne.symm hi), if_neg hi]

/-- The effect of the instructions of a method on the stack. -/
def effectOf (m : CompiledMethod) (_ : Nat) (op : Op) : Nat × Nat :=
  op.effect (if m.ret.isSome then 1 else 0)

/-- A method and the body that it was lowered from. -/
structure Lowered (c : BuildContext) (methods : Nat) (m : CompiledMethod) (d : MethodDef)
    (body : Body) (l : Lowering) (ops : List LoweredOp) : Prop where
  method : c.program.methodDef? m.method = some d
  source : d.body = some body
  supported : checkSupported m.name body.code = .ok ()
  frame : FrameSlots c.program d body m.typeArgs m.args m.locals m.ret
  profile : StackProfile.analyze body.code (effectOf m) = .ok m.profile
  maxStack : word16? m.profile.maxDepth = some m.maxStack
  context : l.context = c
  args : l.args = m.args
  locals : l.locals = m.locals
  code : l.code = body.code
  lowers : List.Forall₂ (fun item lowered => l.Lowers item.2 item.1.op lowered)
    body.code.toList.zipIdx ops
  callees : ∀ o ∈ ops, ∀ k, o.callee = some k → k < 65536 ∧ k < methods
  noted : m.callees = (Lowering.LoweredBody.ofOps {} ops).callees
  sites : m.sites.toList = ops.map (·.site)

/-- The operands of a method that wait for the link, in chunks that are numbered from `start`. -/
def openOperands (index start : Nat) (pieces : List (List Piece)) : List Fixup :=
  (pieces.zipIdx start).flatMap fun (ps, chunk) => (Piece.links 0 ps).map fun (position, operand) =>
    { method := index, chunk, position, operand }

/-- The operands of a method among those that wait. -/
def openIn (r : Registry) (index : Nat) : List Fixup :=
  r.fixups.toList.filter (·.method == index)

/-- What the entry of a method holds once its body is lowered. -/
structure Completed (c : BuildContext) (r : Registry) (index : Nat) (m : CompiledMethod)
    (d : MethodDef) (body : Body) (l : Lowering) (ops : List LoweredOp) : Prop
    extends Lowered c r.methods.size m d body l ops where
  chunks : l.assemble (Lowering.LoweredBody.ofOps {} ops) = .ok m.chunks
  fixups : r.openIn index = openOperands index 0 (ops.map (·.pieces))
  planned : ∀ plan, m.cStatus = .planned plan → ∃ methods, Framed methods r.methods ∧
    CPlan.ofMethod methods c.builtins { m with cStatus := .undecided } body.code = .ok plan
  decided : m.cStatus ≠ .undecided

/-- The method with the index is completed. -/
def CompletedAt (c : BuildContext) (r : Registry) (index : Nat) : Prop :=
  ∃ m d body l ops, r.methods[index]? = some m ∧ Completed c r index m d body l ops

/-- A completed method stays completed if neither its entry nor its open operands change. -/
theorem CompletedAt.mono (h : CompletedAt c r index)
    (hentry : r'.methods[index]? = r.methods[index]?) (hframed : Framed r.methods r'.methods)
    (hopen : r'.openIn index = r.openIn index) : CompletedAt c r' index := by
  obtain ⟨m, d, body, l, ops, hm, hc⟩ := h
  refine ⟨m, d, body, l, ops, hentry.trans hm, { hc with
    callees := fun o ho k hk => ?_
    fixups := hopen.trans hc.fixups
    planned := fun plan hp => ?_ }⟩
  · obtain ⟨hword, hlt⟩ := hc.callees o ho k hk
    exact ⟨hword, Nat.lt_of_lt_of_le hlt hframed.size_le⟩
  · obtain ⟨methods, hmethods, hplan⟩ := hc.planned plan hp
    exact ⟨methods, hmethods.trans hframed, hplan⟩

/-! ## What compiling adds -/

/-- Methods that came are completed. Of the methods that were there before, the operands `own` were
left open. -/
structure Adds (c : BuildContext) (own : List Fixup) (r r' : Registry) : Prop where
  extension : Extends r r'
  completed : ∀ i, r.methods.size ≤ i → i < r'.methods.size → CompletedAt c r' i
  fixups : ∃ new, r'.fixups.toList = r.fixups.toList ++ new ∧
    (∀ f ∈ new, f.method < r'.methods.size) ∧ new.filter (·.method < r.methods.size) = own

namespace Adds

variable {own own' : List Fixup} {s t : Registry}

theorem refl (c : BuildContext) (r : Registry) : Adds c [] r r :=
  ⟨growth_extends.refl r, fun i hi hlt => absurd hlt (by omega), [], by simp, by simp, rfl⟩

theorem openIn (h : Adds c own r s) (hi : i < r.methods.size) :
    s.openIn i = r.openIn i ++ own.filter (·.method == i) := by
  obtain ⟨new, hnew, -, hown⟩ := h.fixups
  unfold Registry.openIn
  rw [hnew, filter_append, ← hown, filter_filter]
  refine congrArg _ (filter_congr fun f _ => ?_)
  by_cases hf : f.method = i
  · simp [hf, hi]
  · simp [hf]

theorem completedAt (h : Adds c own r s) (hc : CompletedAt c r i) (hown : ∀ f ∈ own, f.method ≠ i) :
    CompletedAt c s i := by
  obtain ⟨m, d, body, l, ops, hm, -⟩ := id hc
  refine hc.mono ?_ h.extension.framed ?_
  · rw [hm]
    exact h.extension.getElem? hm
  · rw [h.openIn (Array.getElem?_eq_some_iff.1 hm).1, filter_eq_nil_iff.2, append_nil]
    intro f hf
    simpa using hown f hf

theorem trans (h₁ : Adds c own r s) (h₂ : Adds c own' s t)
    (hown : ∀ f ∈ own', f.method < r.methods.size) : Adds c (own ++ own') r t := by
  have hsize := h₁.extension.size
  have hsize' := h₂.extension.size
  obtain ⟨new, hnew, hlt, hr⟩ := h₁.fixups
  obtain ⟨new', hnew', hlt', hs⟩ := h₂.fixups
  refine ⟨growth_extends.trans h₁.extension h₂.extension, fun i hi hi' => ?_, new ++ new', ?_, ?_, ?_⟩
  · by_cases his : i < s.methods.size
    · refine h₂.completedAt (h₁.completed i hi his) fun f hf => ?_
      have := hown f hf
      omega
    · exact h₂.completed i (by omega) hi'
  · rw [hnew', hnew, append_assoc]
  · intro f hf
    rcases mem_append.1 hf with hf | hf
    · have := hlt f hf
      omega
    · exact hlt' f hf
  · rw [filter_append, hr, ← hs]
    refine congrArg _ (filter_congr fun f hf => ?_)
    -- what was left open in a method of `s` belongs to one of `r`
    by_cases hfs : f.method < s.methods.size
    · have hmem : f ∈ own' := by
        rw [← hs]
        exact mem_filter.2 ⟨hf, by simpa using hfs⟩
      simp [hown f hmem, hfs]
    · simp only [hfs, decide_false, decide_eq_false_iff_not]
      omega

end Adds

/-- Open operands belong to methods of the registry. -/
def Tidy (r : Registry) : Prop := ∀ f ∈ r.fixups, f.method < r.methods.size

theorem Adds.tidy {own : List Fixup} {s : Registry} (h : Adds c own r s) (hr : Tidy r) :
    Tidy s := by
  obtain ⟨new, hnew, hlt, -⟩ := h.fixups
  intro f hf
  rw [← Array.mem_toList_iff, hnew, mem_append] at hf
  rcases hf with hf | hf
  · exact Nat.lt_of_lt_of_le (hr f (by simpa using hf)) h.extension.size
  · exact hlt f hf

/-- What compiling a method does to a tidy registry. -/
def Completes (c : BuildContext) (r r' : Registry) : Prop := Tidy r → Adds c [] r r'

theorem growth_completes (c : BuildContext) : Growth (Completes c) where
  refl r _ := Adds.refl c r
  trans h₁ h₂ hr := (h₁ hr).trans (h₂ ((h₁ hr).tidy hr)) (by simp)

theorem Extends.adds (h : Extends r r') (hmethods : r'.methods = r.methods)
    (hfixups : r'.fixups = r.fixups) (c : BuildContext) : Adds c [] r r' where
  extension := h
  completed i hi hlt := by
    rw [hmethods] at hlt
    omega
  fixups := ⟨[], by rw [hfixups, append_nil], by simp, rfl⟩

theorem Notes.adds (h : Notes r r') (c : BuildContext) : Adds c [] r r' :=
  h.extension.adds h.methods h.fixups c

variable {l : Lowering} {id : MethodId} {name : String} {p : Program} {body : Body}

theorem Records.adds {site : Site} (h : Records p r site r') (c : BuildContext) :
    Adds c [] r r' := h.extension.adds h.methods h.fixups c

theorem adds_fixups (c : BuildContext) (own : List Fixup)
    (hown : ∀ f ∈ own, f.method < r.methods.size) :
    Adds c own r { r with fixups := r.fixups ++ own } where
  extension := extends_fixups own r
  completed i hi hlt := absurd hlt (Nat.not_lt.2 hi)
  fixups := by
    refine ⟨own, by simp, hown, filter_eq_self.2 fun f hf => ?_⟩
    simpa using hown f hf

/-! ## Bodies -/

theorem openOperands_lowered (l : Lowering) : ∀ (code : List Instruction) (ops : List LoweredOp)
    (start : Nat), code.length = ops.length →
    ((code.zipIdx start).zip ops).flatMap (fun e => l.fixupsOf e.1.2 e.2.pieces) =
      openOperands l.index start (ops.map (·.pieces))
  | [], ops, start, h => by
    rw [length_nil, eq_comm, length_eq_zero_iff] at h
    subst h
    rfl
  | i :: code, [], start, h => by simp at h
  | i :: code, o :: ops, start, h => by
    rw [zipIdx_cons, zip_cons_cons, flatMap_cons,
      openOperands_lowered l code ops (start + 1) (by simpa using h)]
    rfl

theorem adds_runs (hcompile : Compiler.Leads l.compile (Completes c))
    (h : l.Runs items ops r r') (htidy : Tidy r) (hindex : l.index < r.methods.size) :
    Adds c ((items.zip ops).flatMap fun e => l.fixupsOf e.1.2 e.2.pieces) r r' := by
  have own : ∀ (index : Nat) (ps : List Piece), ∀ f ∈ l.fixupsOf index ps, f.method = l.index := by
    intro index ps f hf
    obtain ⟨link, -, rfl⟩ := mem_map.1 hf
    rfl
  induction h with
  | nil r => exact Adds.refl c r
  | @cons item items lowered ops r r₁ r' moves lowers rest ih =>
    have hmoves : Adds c [] r r₁ := by
      obtain ⟨s, s', hcalls, hrecords, hn⟩ := moves
      have hcalled : Adds c [] r s := by
        cases hcallee : lowered.callee with
        | none =>
          rw [hcallee] at hcalls
          exact hcalls ▸ Adds.refl c r
        | some k =>
          rw [hcallee] at hcalls
          obtain ⟨-, id, args, hc⟩ := hcalls
          exact hcompile id args _ _ _ hc htidy
      exact (hcalled.trans (hrecords.adds c) (by simp)).trans (hn.adds c) (by simp)
    have hsize := hmoves.extension.size
    have hleft : ∀ f ∈ l.fixupsOf item.2 lowered.pieces, f.method < r₁.methods.size := by
      intro f hf
      rw [own _ _ f hf]
      omega
    have hfirst := hmoves.trans (adds_fixups c _ hleft) fun f hf => by rw [own _ _ f hf]; exact hindex
    refine hfirst.trans (ih (hfirst.tidy htidy) ?_) fun f hf => ?_
    · exact Nat.lt_of_lt_of_le hindex hsize
    · obtain ⟨e, -, hf⟩ := mem_flatMap.1 hf
      rw [own _ _ f hf]
      exact hindex

theorem lowers_of_runs (h : l.Runs items ops r r') :
    List.Forall₂ (fun item lowered => l.Lowers item.2 item.1.op lowered) items ops := by
  induction h with
  | nil r => exact .nil
  | cons moves lowers rest ih => exact .cons lowers ih

theorem callees_of_runs (hcompile : Compiler.Bounded l.compile)
    (hextends : Compiler.Keeps l.compile Extends) (h : l.Runs items ops r r') :
    r.methods.size ≤ r'.methods.size ∧
      ∀ o ∈ ops, ∀ k, o.callee = some k → k < 65536 ∧ k < r'.methods.size := by
  induction h with
  | nil r => exact ⟨Nat.le_refl _, by simp⟩
  | @cons item items lowered ops r r₁ r' moves lowers rest ih =>
    obtain ⟨hsize, hrest⟩ := ih
    have hfirst : r.methods.size ≤ r₁.methods.size ∧
        ∀ k, lowered.callee = some k → k < 65536 ∧ k < r₁.methods.size := by
      obtain ⟨s, s', hcalls, hrecords, hn⟩ := moves
      rw [hn.methods, hrecords.methods]
      cases hcallee : lowered.callee with
      | none =>
        rw [hcallee] at hcalls
        exact ⟨Nat.le_of_eq (by rw [hcalls]), by simp⟩
      | some k =>
        rw [hcallee] at hcalls
        obtain ⟨hword, id, args, hc⟩ := hcalls
        refine ⟨((hextends id args).ok hc).size, fun k' hk' => ?_⟩
        cases hk'
        exact ⟨hword, hcompile id args _ _ _ hc⟩
    refine ⟨Nat.le_trans hfirst.1 hsize, fun o ho k hk => ?_⟩
    rcases mem_cons.1 ho with rfl | ho
    · exact ⟨(hfirst.2 k hk).1, Nat.lt_of_lt_of_le (hfirst.2 k hk).2 hsize⟩
    · exact hrest o ho k hk

/-! ## Methods -/

theorem register_notes {m : MethodDef} (h : register p id m body typeArgs name r = .ok index r') :
    r'.fixups = r.fixups ∧ r'.fields = r.fields := by
  have kept : Keeps (fun r r' : Registry => r'.fixups = r.fixups ∧ r'.fields = r.fields)
      (register p id m body typeArgs name) :=
    keeps_register growth_notes (fun _ _ h => ⟨h.fixups, h.fields⟩)
      (fun _ _ _ h ht => ⟨ht.1.trans h.fixups, ht.2.trans h.fields⟩)
      notes_addLayoutRoot p id m body typeArgs name fun _ _ _ => ⟨rfl, rfl⟩
  exact kept.ok h

theorem notes_checkWide {policy : WidePolicy} {p : Option Primitive}
    (h : checkWide policy name p r = .ok u r') : Notes r r' :=
  (keeps_checkWide growth_notes (fun w r => ⟨extends_warnings w r, rfl, rfl, rfl⟩) policy name p).ok h

/-- The plan of a method is decided on what the registry holds, and nothing else changes. -/
theorem decideC_entry (builtins : BuiltinTable) (code : Array Instruction)
    (hm : r.methods[index]? = some m) (hu : m.cStatus = .undecided) :
    ∃ status : CStatus, status ≠ .undecided ∧
      (∀ plan, status = .planned plan ↔ CPlan.ofMethod r.methods builtins m code = .ok plan) ∧
      (decideC builtins index code r).fixups = r.fixups ∧
      (decideC builtins index code r).fields = r.fields ∧
      ∀ i, (decideC builtins index code r).methods[i]? =
        if i = index then some { m with cStatus := status } else r.methods[i]? := by
  unfold decideC
  simp only [hm]
  cases hplan : CPlan.ofMethod r.methods builtins m code with
  | ok plan =>
    exact ⟨.planned plan, by simp, by simp, rfl, rfl, getElem?_modifyMethod _ hm⟩
  | error reason =>
    refine ⟨.blocked reason, by simp, by simp, rfl, rfl, fun i => (getElem?_modifyMethod _ hm i).trans ?_⟩
    simp [hu, CStatus.isBlocked, CStatus.reason?]

section
variable (hextends : compile.Keeps Extends)
include hextends

theorem lt_of_compileWith
    (h : compileWith c compile id typeArgs r = .ok index r') : index < r'.methods.size := by
  obtain ⟨m, -, ⟨hfound, rfl⟩ | ⟨-, rfl, body, r₁, slots, -, -, -, -, hpush, hcomplete⟩⟩ :=
    compileWith_ok h
  · exact (Array.findIdx?_eq_some_iff_getElem.1 hfound).1
  · have hlt : r.methods.size < r₁.methods.size := by simp [hpush]
    have hgrows := (keeps_growsFrom_complete hextends r.methods.size _ _ _).ok hcomplete
    exact Nat.lt_of_lt_of_le hlt (hgrows (Nat.le_of_lt hlt)).size

/-- The lowering of the body of a method. -/
def loweringOf (c : BuildContext) (compile : Compiler) (index : Nat)
    (m : CompiledMethod) (code : Array Instruction) : Lowering where
  context := c
  compile := compile
  index := index
  name := m.name
  typeArgs := m.typeArgs
  args := m.args
  locals := m.locals
  code := code

/-- What completing the entry of a method makes of it. The registry is `r₁` when the body is lowered, and
the methods are `methods` when the plan is made. All other entries are as lowering left them. -/
structure Fills (c : BuildContext) (compile : Compiler) (index : Nat)
    (m e : CompiledMethod) (code : Array Instruction) (ops : List LoweredOp)
    (methods : Array CompiledMethod) (r r₁ r' : Registry) : Prop where
  lowered : (loweringOf c compile index m code).lowerBody r =
    .ok (Lowering.LoweredBody.ofOps {} ops) r₁
  runs : (loweringOf c compile index m code).Runs code.toList.zipIdx ops r r₁
  frame : Registry.frame e = Registry.frame m
  identity : Registry.identity e = Registry.identity m
  lines : e.lines = m.lines
  profile : StackProfile.analyze code (effectOf e) = .ok e.profile
  maxStack : word16? e.profile.maxDepth = some e.maxStack
  chunks : (loweringOf c compile index m code).assemble (Lowering.LoweredBody.ofOps {} ops) =
    .ok e.chunks
  callees : e.callees = (Lowering.LoweredBody.ofOps {} ops).callees
  sites : e.sites.toList = ops.map (·.site)
  planned : ∀ plan, e.cStatus = .planned plan ↔
    CPlan.ofMethod methods c.builtins { e with cStatus := .undecided } code = .ok plan
  decided : e.cStatus ≠ .undecided
  planning : ∀ i : Nat, methods[i]? =
    if i = index then some { e with cStatus := .undecided } else r₁.methods[i]?
  framed : Framed methods r'.methods
  entries : ∀ i : Nat, r'.methods[i]? = if i = index then some e else r₁.methods[i]?
  fixups : r'.fixups = r₁.fixups
  fields : r'.fields = r₁.fields

theorem complete_entry {code : Array Instruction} (hm : r.methods[index]? = some m)
    (hu : m.cStatus = .undecided) (h : complete c compile index m types code r = .ok u r') :
    ∃ e ops r₁ methods, Fills c compile index m e code ops methods r r₁ r' := by
  obtain ⟨profile, maxStack, lowered, chunks, r₁, r₂, hprofile, hmax, hlower, hassemble, hwide, hr'⟩ :=
    complete_ok h
  obtain ⟨ops, hruns, rfl⟩ := Lowering.lowerBody_ok hlower
  have hnotes := notes_checkWide hwide
  have hm₂ : r₂.methods[index]? = some m := by
    rw [hnotes.methods]
    have hgrown := (admits_extends (l := loweringOf c compile index m code) hextends).lowerBody.ok
      hlower
    exact hgrown.getElem? hm
  generalize hfill : (fun m : CompiledMethod => { m with
    profile, maxStack, chunks
    sites := (ofOps {} ops).sites
    callees := (ofOps {} ops).callees }) = fill at hr'
  have hentry : ∀ i : Nat, (r₂.modifyMethod index fill).methods[i]? =
      if i = index then some (fill m) else r₁.methods[i]? := by
    intro i
    rw [getElem?_modifyMethod fill hm₂, hnotes.methods]
  have hundecided : (fill m).cStatus = .undecided := by
    rw [← hfill]
    exact hu
  have hback : { fill m with cStatus := .undecided } = fill m := by rw [← hundecided]
  obtain ⟨status, hstatus, hplan, hfixups, hfields, hentries⟩ :=
    decideC_entry c.builtins code (by rw [hentry, if_pos rfl]) hundecided
  rw [← hr'] at hfixups hfields hentries
  refine ⟨{ fill m with cStatus := status }, ops, r₁, (r₂.modifyMethod index fill).methods, {
    lowered := hlower
    runs := hruns
    frame := hfill ▸ rfl
    identity := hfill ▸ rfl
    lines := hfill ▸ rfl
    profile := hfill ▸ hprofile
    maxStack := hfill ▸ hmax
    chunks := hfill ▸ hassemble
    callees := hfill ▸ rfl
    sites := ?_
    planned := ?_
    decided := hstatus
    planning := ?_
    framed := framed_of_entries ((hentry index).trans (if_pos rfl)) (by rfl) hentries
    entries := fun i => ?_
    fixups := hfixups.trans hnotes.fixups
    fields := hfields.trans hnotes.fields }⟩
  · rw [← hfill]
    simp [ofOps]
  · exact hplan
  · rw [hback]
    exact hentry
  · rw [hentries]
    by_cases hi : i = index
    · rw [if_pos hi, if_pos hi]
    · rw [if_neg hi, if_neg hi, hentry, if_neg hi]

variable (hlt : compile.Bounded) (hadds : compile.Leads (Completes c))
include hlt hadds

theorem complete_completed {d : MethodDef} (htidy : Tidy r)
    (hm : r.methods[index]? = some m) (hu : m.cStatus = .undecided) (hopen : r.openIn index = [])
    (hd : c.program.methodDef? m.method = some d)
    (hbody : d.body = some body) (hsup : checkSupported m.name body.code = .ok ())
    (hframe : FrameSlots c.program d body m.typeArgs m.args m.locals m.ret)
    (h : complete c compile index m types body.code r = .ok u r') :
    CompletedAt c r' index ∧
      (∀ i, r.methods.size ≤ i → i < r'.methods.size → CompletedAt c r' i) ∧
      ∃ new, r'.fixups.toList = r.fixups.toList ++ new ∧
        ∀ f ∈ new, index ≤ f.method ∧ f.method < r'.methods.size := by
  have hindex := (Array.getElem?_eq_some_iff.1 hm).1
  obtain ⟨e, ops, r₁, methods, hfills⟩ := complete_entry hextends hm hu h
  have hframed := hfills.frame
  have hsame := hfills.identity
  simp only [Registry.frame, Registry.identity, Prod.mk.injEq] at hframed hsame
  have hlowers := lowers_of_runs hfills.runs
  obtain ⟨-, hcallees⟩ := callees_of_runs hlt hextends hfills.runs
  have hbodies := adds_runs hadds hfills.runs htidy hindex
  rw [openOperands_lowered (loweringOf c compile index m body.code) body.code.toList ops 0
    (by simpa using hlowers.length_eq)] at hbodies
  have hrest : ∀ i ≠ index, r'.methods[i]? = r₁.methods[i]? := by
    intro i hi
    rw [hfills.entries, if_neg hi]
  have hgrown : Framed r₁.methods r'.methods :=
    framed_of_entries (hbodies.extension.getElem? hm) hfills.frame hfills.entries
  have hopenIn : ∀ i, r'.openIn i = r₁.openIn i := fun i => by rw [openIn, openIn, hfills.fixups]
  have hopened : ∀ f ∈ openOperands index 0 (ops.map (·.pieces)), f.method = index := by
    intro f hf
    obtain ⟨e, -, hf⟩ := mem_flatMap.1 hf
    obtain ⟨link, -, rfl⟩ := mem_map.1 hf
    rfl
  refine ⟨⟨e, d, body, loweringOf c compile index m body.code, ops,
    by rw [hfills.entries, if_pos rfl], ?_⟩, fun i hi hi' => ?_, ?_⟩
  · refine {
      method := by rw [hsame.2.1, hd]
      source := hbody
      supported := by rw [hframed.1, hsup]
      frame := by
        rw [hframed.2.1, hframed.2.2.1, hframed.2.2.2, hsame.2.2]
        exact hframe
      profile := hfills.profile
      maxStack := hfills.maxStack
      context := rfl
      args := hframed.2.1.symm
      locals := hframed.2.2.1.symm
      code := rfl
      lowers := hlowers
      callees := fun o ho k hk => ?_
      noted := hfills.callees
      sites := hfills.sites
      chunks := hfills.chunks
      fixups := ?_
      planned := fun plan hp => ⟨methods, hfills.framed, (hfills.planned plan).1 hp⟩
      decided := hfills.decided }
    · obtain ⟨hword, hk⟩ := hcallees o ho k hk
      exact ⟨hword, Nat.lt_of_lt_of_le hk hgrown.size_le⟩
    · rw [hopenIn, hbodies.openIn hindex, hopen, filter_eq_self.2]
      · rfl
      · intro f hf
        simpa using hopened f hf
  · have hne : i ≠ index := by omega
    have hlt₁ : i < r₁.methods.size := by
      have hi := hrest i hne
      rw [Array.getElem?_eq_getElem hi'] at hi
      exact (Array.getElem?_eq_some_iff.1 hi.symm).1
    exact (hbodies.completed i hi hlt₁).mono (hrest i hne) hgrown (hopenIn i)
  · obtain ⟨new, hnew, hltn, hown⟩ := hbodies.fixups
    refine ⟨new, by rw [hfills.fixups, hnew], fun f hf => ⟨?_, ?_⟩⟩
    · by_cases hold : f.method < r.methods.size
      · have hmem : f ∈ new.filter (·.method < r.methods.size) :=
          mem_filter.2 ⟨hf, by simpa using hold⟩
        rw [hown] at hmem
        exact Nat.le_of_eq (hopened f hmem).symm
      · omega
    · exact Nat.lt_of_lt_of_le (hltn f hf) hgrown.size_le

/-- **A method that is compiled is completed**, and so is all that it reaches. -/
theorem adds_compileWith (id : MethodId) (typeArgs : List TypeRef) :
    Leads (Completes c) (compileWith c compile id typeArgs) := by
  intro r index r' h htidy
  have extension := (keeps_compileWith hextends id typeArgs).ok h
  obtain ⟨d, hd, ⟨-, rfl⟩ | ⟨-, rfl, body, r₁, slots, hbody, hsup, hreg, hframe, hpush, hcomplete⟩⟩ :=
    compileWith_ok h
  · exact Adds.refl c r'
  · have hfixups := (register_notes hreg).1
    have hsize : r₁.methods.size = r.methods.size + 1 := by rw [hpush, Array.size_push]
    have hopen : r₁.openIn r.methods.size = [] := by
      rw [openIn, hfixups, filter_eq_nil_iff]
      intro f hf
      have := htidy f (by simpa using hf)
      simp only [beq_iff_eq]
      omega
    have htidy₁ : Tidy r₁ := by
      intro f hf
      rw [hfixups] at hf
      exact Nat.lt_of_lt_of_le (htidy f hf) (by omega)
    obtain ⟨hindex, hnested, new, hnew, hrange⟩ := complete_completed hextends hlt hadds htidy₁
      (hpush ▸ Array.getElem?_push_size) rfl hopen hd hbody hsup hframe hcomplete
    refine ⟨extension, fun i hi hi' => ?_, new, by rw [hnew, hfixups], fun f hf => (hrange f hf).2, ?_⟩
    · by_cases heq : i = r.methods.size
      · rw [heq]
        exact hindex
      · exact hnested i (by omega) hi'
    · rw [filter_eq_nil_iff]
      intro f hf
      have := (hrange f hf).1
      simp only [decide_eq_true_eq]
      omega

end

theorem lt_of_compileWithin : ∀ {fuel : Nat} (id : MethodId)
    (args : List TypeRef) (r : Registry) (index : Nat) (r' : Registry),
    compileWithin c fuel id args r = .ok index r' → index < r'.methods.size
  | 0, _, _, _, _, _, h => by simp [compileWithin] at h
  | n + 1, _, _, _, _, _, h => lt_of_compileWith (keeps_compileWithin c n) h

section
variable {R : Registry → Registry → Prop}
  (step : ∀ {compile : Compiler},
    compile.Keeps Extends → compile.Bounded → compile.Leads R →
      Compiler.Leads (compileWith c compile) R)
include step

theorem leads_compileWithin : ∀ fuel, Compiler.Leads (compileWithin c fuel) R
  | 0, _, _ => leads_throw _
  | n + 1, id, args =>
    step (keeps_compileWithin c n) lt_of_compileWithin (leads_compileWithin n) id args

/-- **What holds along notes, and along compiling a method if it holds along compiling what that reaches**,
holds along binding. -/
theorem AdmitsBinding.of_compileWith (g : Growth R) (notes : ∀ {r r'}, Notes r r' → R r r') :
    AdmitsBinding c fun x => Leads R x where
  closed := g.closed_leads
  compile := leads_compileWithin step _
  discover t := (Growth.modify fun r => notes (notes_discoverClass c.program t r)).leads
  bind index implementor := (Growth.modify fun r =>
    notes ⟨extends_bindClass index implementor r, rfl, rfl, rfl⟩).leads

end

theorem admitsBinding_completes (c : BuildContext) :
    AdmitsBinding c fun x => Leads (Completes c) x :=
  .of_compileWith adds_compileWith (growth_completes c) fun h _ => h.adds c

/-- **Once the entry is compiled and all slots are bound, every method is completed**, and all open
operands belong to methods. -/
theorem completed_of_bound {start : MethodRef} {iterations : Nat}
    (hentry : compileEntry c start {} = .ok index r) (hbind : bindSlots c r = .ok iterations r') :
    (∀ i < r'.methods.size, CompletedAt c r' i) ∧ Tidy r' := by
  have hempty : Tidy {} := by
    intro f hf
    simp at hf
  have hfirst := (admitsBinding_completes c).compileEntry start _ _ _ hentry hempty
  have hrest := (admitsBinding_completes c).bindSlots _ _ _ hbind (hfirst.tidy hempty)
  have hall := hfirst.trans hrest (by simp)
  exact ⟨fun i hi => hall.completed i (Nat.zero_le i) hi, hall.tidy hempty⟩

end Registry

end DeviceCode
