import DeviceCode.Proofs.LinkedCode

/-!
# Methods that were given up

A method takes its index before its body is lowered. Where that fails, its entry stays in the registry
as it was registered, and so do the operands that were recorded for it. `Registry.Settled` is what holds
all the same, after failures too: every method is completed, or nothing of its body is in its entry
(`UnfinishedAt`). Main statement: `attempts_accounted`, for every registry that compiling one entry
after the other leaves, with what a further attempt and a link come to. `pump_left_behind` shows a
method that was given up and counts as compiled.

`Blind`: how a computation ends does not depend on the state. What refuses a method before it takes an
index is of this kind, so that it is refused again.
-/

namespace DeviceCode

open Growth

variable {m : CompiledMethod} {index : Nat} {r r' r₁ : Registry} {e : CompileError}
  {types : FrameTypes} {code : Array Instruction} {entry : MethodRef} {c : BuildContext}

/-! ## How a computation ends -/

section
variable {ε σ α β : Type} {x : EStateM ε σ α}

/-- How the computation ends, without the state that it leaves. -/
def outcome (x : EStateM ε σ α) (s : σ) : Except ε α :=
  match x s with
  | .ok a _ => .ok a
  | .error e _ => .error e

theorem outcome_error {s : σ} {e : ε} :
    outcome x s = .error e ↔ ∃ t, x s = .error e t := by
  rw [outcome]
  cases x s with
  | ok a t => simp
  | error e' t => simp

/-- The computation ends alike from all states. -/
def Blind (x : EStateM ε σ α) : Prop := ∀ s t, outcome x s = outcome x t

/-- If the computation fails, then it does so from all states, and it moves along `R`. -/
def Refuses (R : σ → σ → Prop) (x : EStateM ε σ α) : Prop :=
  ∀ s e t, x s = .error e t → R s t ∧ ∀ s', outcome x s' = .error e

theorem outcome_bind (x : EStateM ε σ α) (f : α → EStateM ε σ β) (s : σ) :
    outcome (x >>= f) s = outcome x s >>= fun a => outcome (f a) (stateAfter x s) := by
  cases h : x s with
  | ok a t =>
    rw [outcome, outcome, state_bind_of_ok h, h, stateAfter_ok h]
    rfl
  | error e t =>
    rw [outcome, outcome, state_bind_of_error h, h]
    rfl

namespace Blind

theorem pure (a : α) : Blind (Pure.pure a : EStateM ε σ α) := fun _ _ => rfl

theorem modify (f : σ → σ) : Blind (modify f : EStateM ε σ PUnit) := fun _ _ => rfl

theorem ofExcept (x : Except ε α) : Blind (MonadExcept.ofExcept x : EStateM ε σ α) := by
  intro s t
  cases x <;> rfl

variable {f : α → EStateM ε σ β}

theorem bind (hx : Blind x) (hf : ∀ a, Blind (f a)) :
    Blind (x >>= f) := by
  intro s t
  rw [outcome_bind, outcome_bind, hx s t]
  cases outcome x t with
  | ok a => exact hf a _ _
  | error e => rfl

theorem foldlM {f : β → α → EStateM ε σ β} (hf : ∀ b a, Blind (f b a)) :
    ∀ (xs : List α) (b : β), Blind (xs.foldlM f b)
  | [], b => by
    exact pure b
  | x :: xs, b => by
    exact (hf b x).bind fun c => foldlM hf xs c

theorem refuses {R : σ → σ → Prop} (g : Growth R)
    (hx : Blind x) (hkeeps : Keeps R x) (hf : ∀ a, Refuses R (f a)) : Refuses R (x >>= f) := by
  intro s e t h
  rcases state_bind_error.1 h with h | ⟨a, s₁, hs, h⟩
  · refine ⟨stateAfter_error h ▸ hkeeps s, fun s' => ?_⟩
    rw [outcome_bind, hx s' s, outcome_error.2 ⟨t, h⟩]
    rfl
  · obtain ⟨hR, hsame⟩ := hf a s₁ e t h
    refine ⟨g.trans (hkeeps.ok hs) hR, fun s' => ?_⟩
    rw [outcome_bind, hx s' s, outcome, hs]
    exact hsame _

end Blind

end

namespace Registry

theorem blind_addSlot (p : Program) (area : SlotList) (type : TypeRef) :
    Blind (addSlot p area type) := by
  refine (Blind.ofExcept _).bind fun storage => ?_
  split
  · exact (Blind.modify _).bind fun _ => Blind.ofExcept _
  · exact Blind.ofExcept _

theorem blind_resultStorage (p : Program) (type : TypeRef) : Blind (resultStorage p type) := by
  refine (Blind.ofExcept _).bind fun storage => ?_
  split
  · exact (Blind.modify _).bind fun _ => Blind.pure _
  · exact Blind.pure _

/-- **A method that cannot be registered** leaves no entry, and no registry has a place for it. -/
theorem refuses_register (p : Program) (id : MethodId) (m : MethodDef) (body : Body)
    (typeArgs : List TypeRef) (name : String) :
    Refuses Notes (register p id m body typeArgs name) := by
  rw [register_eq]
  refine Blind.refuses growth_notes ?_ (parallel_frameSlots growth_notes.keeps_parallel _ fun t _ =>
    modify (notes_addLayoutRoot t)) fun slots r e r' h => ?_
  · have slots := Blind.foldlM (blind_addSlot p)
    exact (Blind.ofExcept _).bind fun first => (slots _ first).bind fun args => (slots _ {}).bind
      fun locals => (blind_resultStorage p _).bind fun ret => Blind.pure _
  · cases h

/-! ## Methods that were given up -/

/-- The entry without what lowering the body adds to it. -/
def blank (m : CompiledMethod) : CompiledMethod :=
  { m with maxStack := 0, chunks := #[], sites := #[], profile := {}, callees := [], cStatus := .undecided }

/-- The method took the index, and its body is not lowered. -/
def UnfinishedAt (r : Registry) (index : Nat) : Prop :=
  ∃ m, r.methods[index]? = some m ∧ blank m = m

instance decidableUnfinishedAt (r : Registry) (index : Nat) : Decidable (UnfinishedAt r index) :=
  decidable_of_iff ((r.methods[index]?.any fun m => decide (blank m = m)) = true)
    (by simp [UnfinishedAt, Option.any_eq_true])

/-- Every method is completed or was given up, and open operands belong to methods. -/
structure Settled (c : BuildContext) (r : Registry) : Prop where
  methods : ∀ i < r.methods.size, CompletedAt c r i ∨ UnfinishedAt r i
  tidy : Tidy r

section
variable {c : BuildContext} {s : Registry} {i : Nat}

theorem UnfinishedAt.lt (h : UnfinishedAt r i) : i < r.methods.size := by
  obtain ⟨m, hm, -⟩ := h
  exact (Array.getElem?_eq_some_iff.1 hm).1

theorem UnfinishedAt.mono (h : UnfinishedAt r i) (hs : Extends r s) : UnfinishedAt s i := by
  obtain ⟨m, hm, hblank⟩ := h
  exact ⟨m, hs.getElem? hm, hblank⟩

theorem CompletedAt.not_unfinished (h : CompletedAt c r i) : ¬UnfinishedAt r i := by
  rintro ⟨m, hm, hblank⟩
  obtain ⟨m', d, body, l, ops, hm', hc⟩ := h
  cases Option.some.inj (hm.symm.trans hm')
  exact hc.decided (by rw [← hblank]; rfl)

theorem Settled.empty (c : BuildContext) : Settled c {} :=
  ⟨fun i hi => absurd hi (by simp), fun f hf => by simp at hf⟩

variable {own : List Fixup} {name : String}

theorem Adds.settled (h : Adds c own r s)
    (hown : ∀ f ∈ own, UnfinishedAt r f.method) (hr : Settled c r) : Settled c s := by
  refine ⟨fun i hi => ?_, h.tidy hr.tidy⟩
  by_cases hlt : i < r.methods.size
  · rcases hr.methods i hlt with hc | hu
    · refine .inl (h.completedAt hc fun f hf heq => ?_)
      exact hc.not_unfinished (heq ▸ hown f hf)
    · exact .inr (hu.mono h.extension)
  · exact .inl (h.completed i (Nat.le_of_not_lt hlt) hi)

theorem Settled.push (hr : Settled c r) (hm : blank m = m) (hmethods : s.methods = r.methods.push m)
    (hfixups : s.fixups = r.fixups) : Settled c s := by
  have hsize : s.methods.size = r.methods.size + 1 := by rw [hmethods, Array.size_push]
  have hold : ∀ i < r.methods.size, s.methods[i]? = r.methods[i]? := by
    intro i hi
    rw [hmethods, Array.getElem?_push_lt hi, Array.getElem?_eq_getElem hi]
  refine ⟨fun i hi => ?_, fun f hf => ?_⟩
  · by_cases hlt : i < r.methods.size
    · rcases hr.methods i hlt with hc | ⟨e, he, hblank⟩
      · refine .inl (hc.mono (hold i hlt) (fun k e he => ⟨e, ?_, rfl⟩) ?_)
        · rw [hold k (Array.getElem?_eq_some_iff.1 he).1, he]
        · rw [openIn, openIn, hfixups]
      · exact .inr ⟨e, (hold i hlt).trans he, hblank⟩
    · obtain rfl : i = r.methods.size := by omega
      exact .inr ⟨m, by rw [hmethods, Array.getElem?_push_size], hm⟩
  · rw [hfixups] at hf
    have := hr.tidy f hf
    omega

end

/-! ## Compiling where it fails -/

/-- What compiling a method does, also where it fails. -/
def Settles (c : BuildContext) (r r' : Registry) : Prop := Settled c r → Settled c r'

theorem growth_settles (c : BuildContext) : Growth (Settles c) where
  refl _ h := h
  trans h₁ h₂ h := h₂ (h₁ h)

/-- What lowering the body of the method with the index does, also where it fails: the method itself
is not finished. -/
def SettlesIn (c : BuildContext) (index : Nat) (r r' : Registry) : Prop :=
  Settled c r → UnfinishedAt r index → Settled c r' ∧ UnfinishedAt r' index

theorem growth_settlesIn (c : BuildContext) (index : Nat) : Growth (SettlesIn c index) where
  refl _ h hu := ⟨h, hu⟩
  trans h₁ h₂ h hu := h₂ (h₁ h hu).1 (h₁ h hu).2

theorem Adds.settlesIn (h : Adds c own r r')
    (hown : ∀ f ∈ own, f.method = index) : SettlesIn c index r r' :=
  fun hr hu => ⟨h.settled (fun f hf => hown f hf ▸ hu) hr, hu.mono h.extension⟩

theorem settlesIn_recordField (c : BuildContext) (index : Nat) (f : FieldUse) (r : Registry) :
    SettlesIn c index r (r.recordField f) := by
  have hsame : (r.recordField f).methods = r.methods ∧ (r.recordField f).fixups = r.fixups := by
    unfold recordField
    split <;> exact ⟨rfl, rfl⟩
  exact ((extends_recordField f r).adds hsame.1 hsame.2 c).settlesIn (by simp)

theorem settlesIn_internSlot (c : BuildContext) (index : Nat) (slot : VirtualSlot) :
    Keeps (SettlesIn c index) (internSlot slot) := by
  intro r
  obtain ⟨i, -, h⟩ | ⟨-, h⟩ := internSlot_cases slot r
  all_goals
    rw [stateAfter_ok h]
    exact ((notes_internSlot h).adds c).settlesIn (by simp)

/-- **Lowering a body** leaves the method unfinished, and all others completed or given up. -/
theorem settlesIn_lowerBody {l : Lowering} (hextends : Compiler.Keeps l.compile Extends)
    (hsettles : Compiler.Keeps l.compile (Settles c)) :
    Keeps (SettlesIn c l.index) l.lowerBody := by
  have notes : ∀ {f : Registry → Registry}, (∀ r, Notes r (f r)) →
      Keeps (SettlesIn c l.index) (modify f : RegistryM PUnit) := fun h =>
    modify fun r => ((h r).adds c).settlesIn (by simp)
  have relates : l.Relates l.compile (fun _ => True) (fun _ => True) CompileError.Decided fun x _ =>
      Keeps (SettlesIn c l.index) x := {
    parallel := (growth_settlesIn c l.index).closed_keeps.parallel _
    mentions := ⟨fun _ _ => trivial, fun _ => trivial, fun _ _ _ => trivial, fun _ _ _ => trivial⟩
    compile := fun id _ r hr hu => ⟨hsettles id _ r hr, hu.mono (hextends id _ r)⟩
    field := fun _ _ _ _ => modify (settlesIn_recordField c l.index _)
    discover := fun _ _ => notes (notes_discoverClass l.program _)
    root := fun _ => notes (notes_addLayoutRoot _)
    slot := fun _ _ _ => settlesIn_internSlot c l.index _
    fixups := fun {index _ lowered _ _} _ _ => by
      have own : ∀ f ∈ l.fixupsOf index lowered.pieces, f.method = l.index := by
        intro f hf
        obtain ⟨link, -, rfl⟩ := List.mem_map.1 hf
        rfl
      refine modify fun r hr hu => ?_
      exact (adds_fixups c _ fun f hf => own f hf ▸ hu.lt).settlesIn own hr hu }
  exact relates.lowerBody fun _ _ => trivial

theorem error_checkWide {policy : WidePolicy} {p : Option Primitive}
    (h : checkWide policy name p r = .error e r') : r = r' := by
  unfold checkWide at h
  split at h
  · cases h
  · split at h
    · cases h
    · cases h
    · cases h
      rfl

theorem complete_error {compile : Compiler}
    (h : complete c compile index m types code r = .error e r') :
    r' = r ∨ r' = stateAfter (loweringOf c compile index m code).lowerBody r := by
  rcases state_bind_error.1 h with h | ⟨profile, r₁, hprofile, h⟩
  · exact .inl (state_ofExcept_error.1 h).2.symm
  obtain ⟨-, rfl⟩ := state_ofExcept_ok.1 hprofile
  cases hmax : word16? profile.maxDepth with
  | none =>
    simp only [hmax] at h
    cases h
    exact .inl rfl
  | some maxStack =>
    simp only [hmax] at h
    refine .inr ?_
    rcases state_bind_error.1 h with h | ⟨lowered, r₂, hlower, h⟩
    · exact (stateAfter_error h).symm
    rw [show stateAfter (loweringOf c compile index m code).lowerBody r = r₂ from stateAfter_ok hlower]
    rcases state_bind_error.1 h with h | ⟨chunks, r₃, hassemble, h⟩
    · exact (state_ofExcept_error.1 h).2.symm
    obtain ⟨-, rfl⟩ := state_ofExcept_ok.1 hassemble
    rcases state_bind_error.1 h with h | ⟨_, r₄, -, h⟩
    · exact (error_checkWide h).symm
    · cases h

/-- The method is refused before it takes an index, and so it is wherever the methods are the same. -/
structure Refused (x : RegistryM Nat) (e : CompileError) (r r' : Registry) : Prop where
  notes : Notes r r'
  again : ∀ s, s.methods = r.methods → outcome x s = .error e

section
variable {c : BuildContext} {compile : Compiler} {id : MethodId}
  {typeArgs : List TypeRef} {m : MethodDef} {body : Body}

section
variable (hm : c.program.methodDef? id = some m)
  (hi : r.methodIndex? (m.signature c.program typeArgs) = none)
include hm hi

theorem compileWith_unsupported (hb : m.body = some body)
    (hs : checkSupported (m.signature c.program typeArgs) body.code = .error e) :
    compileWith c compile id typeArgs r = .error e r := by
  obtain ⟨k, hk, -⟩ := compileWith_new compile hm hi hb
  rw [hk]
  exact state_bind_of_error (state_ofExcept_error.2 ⟨hs, rfl⟩) _

theorem compileWith_unregistered (hb : m.body = some body)
    (hs : checkSupported (m.signature c.program typeArgs) body.code = .ok ())
    (hreg : register c.program id m body typeArgs (m.signature c.program typeArgs) r = .error e r') :
    compileWith c compile id typeArgs r = .error e r' := by
  obtain ⟨k, hk, -⟩ := compileWith_new compile hm hi hb
  rw [hk, state_bind_of_ok (state_ofExcept_ok.2 ⟨hs, rfl⟩)]
  exact state_bind_of_error hreg _

end

variable (compile) in
/-- **Compiling a method that fails**: the method is refused, or it took the next index and could not
be completed. -/
theorem compileWith_error (h : compileWith c compile id typeArgs r = .error e r') :
    Refused (compileWith c compile id typeArgs) e r r' ∨
      ∃ m body r₁ entry, c.program.methodDef? id = some m ∧
        r.methodIndex? (m.signature c.program typeArgs) = none ∧
        register c.program id m body typeArgs (m.signature c.program typeArgs) r =
          .ok r.methods.size r₁ ∧
        r₁.methods[r.methods.size]? = some entry ∧
        complete c compile r.methods.size entry (FrameTypes.of m body typeArgs) body.code r₁ =
          .error e r' := by
  cases hm : c.program.methodDef? id with
  | none =>
    rw [compileWith_unknown hm] at h
    cases h
    exact .inl ⟨growth_notes.refl _, fun s _ => outcome_error.2 ⟨s, compileWith_unknown hm s⟩⟩
  | some m =>
    cases hi : r.methodIndex? (m.signature c.program typeArgs) with
    | some i =>
      rw [compileWith_known hm hi] at h
      cases h
    | none =>
      have hnone : ∀ s : Registry, s.methods = r.methods →
          s.methodIndex? (m.signature c.program typeArgs) = none := fun s hs => by
        rw [methodIndex?, hs]
        exact hi
      cases hb : m.body with
      | none =>
        rw [compileWith_bodiless hm hi hb] at h
        cases h
        exact .inl ⟨growth_notes.refl _, fun s hs =>
          outcome_error.2 ⟨s, compileWith_bodiless hm (hnone s hs) hb⟩⟩
      | some body =>
        obtain ⟨k, hk, hcomplete⟩ := compileWith_new compile hm hi hb
        rw [hk] at h
        rcases state_bind_error.1 h with hs | ⟨_, r₀, hs, h⟩
        · obtain ⟨hsup, rfl⟩ := state_ofExcept_error.1 hs
          exact .inl ⟨growth_notes.refl _, fun s hs =>
            outcome_error.2 ⟨s, compileWith_unsupported hm (hnone s hs) hb hsup⟩⟩
        obtain ⟨hsup, rfl⟩ := state_ofExcept_ok.1 hs
        rcases state_bind_error.1 h with hreg | ⟨index, r₁, hreg, h⟩
        · obtain ⟨hnotes, hsame⟩ := refuses_register _ _ _ _ _ _ _ _ _ hreg
          refine .inl ⟨hnotes, fun s hs => ?_⟩
          obtain ⟨s', hs'⟩ := outcome_error.1 (hsame s)
          exact outcome_error.2 ⟨s', compileWith_unregistered hm (hnone s hs) hb hsup hs'⟩
        · obtain ⟨rfl, slots, -, hpush⟩ := register_ok hreg
          have hentry := hpush ▸ Array.getElem?_push_size
          rw [hcomplete _ _ _ hentry] at h
          rcases state_bind_error.1 h with h | ⟨_, r₂, -, h⟩
          · exact .inr ⟨m, body, r₁, _, rfl, hi, hreg, hentry, h⟩
          · cases h

end

section
variable {c : BuildContext} {compile : Compiler}
  (hextends : compile.Keeps Extends)
  (hsettles : compile.Keeps (Settles c))
include hextends hsettles

theorem settled_of_incomplete {id : MethodId} {m : MethodDef} {body : Body}
    {typeArgs : List TypeRef} {entry : CompiledMethod} (hr : Settled c r)
    (hreg : register c.program id m body typeArgs name r = .ok r.methods.size r₁)
    (hcomplete : complete c compile r.methods.size entry types code r₁ = .error e r') :
    Settled c r' ∧ UnfinishedAt r' r.methods.size ∧ Extends r₁ r' := by
  obtain ⟨-, slots, -, hpush⟩ := register_ok hreg
  have hr₁ : Settled c r₁ := hr.push rfl hpush (register_notes hreg).1
  have hu₁ : UnfinishedAt r₁ r.methods.size := ⟨_, by rw [hpush, Array.getElem?_push_size], rfl⟩
  rcases complete_error hcomplete with rfl | rfl
  · exact ⟨hr₁, hu₁, growth_extends.refl _⟩
  · have hgrown := (admits_extends (l := loweringOf c compile r.methods.size entry code)
      hextends).lowerBody r₁
    obtain ⟨hsettled, hu⟩ := settlesIn_lowerBody
      (l := loweringOf c compile r.methods.size entry code) hextends hsettles r₁ hr₁ hu₁
    exact ⟨hsettled, hu, hgrown⟩

theorem settles_compileWith (hlt : compile.Bounded)
    (hadds : compile.Leads (Completes c)) (id : MethodId)
    (typeArgs : List TypeRef) : Keeps (Settles c) (compileWith c compile id typeArgs) := by
  intro r hr
  cases h : compileWith c compile id typeArgs r with
  | ok index r' =>
    rw [stateAfter_ok h]
    exact (adds_compileWith hextends hlt hadds id typeArgs r index r' h hr.tidy).settled (by simp) hr
  | error e r' =>
    rw [stateAfter_error h]
    rcases compileWith_error _ h with hrefused | ⟨m, body, r₁, entry, -, -, hreg, -, hcomplete⟩
    · exact (hrefused.notes.adds c).settled (by simp) hr
    · exact (settled_of_incomplete hextends hsettles hr hreg hcomplete).1

end

theorem settles_compileWithin (c : BuildContext) :
    ∀ fuel, Compiler.Keeps (compileWithin c fuel) (Settles c)
  | 0, _, _ => (growth_settles c).throw _
  | n + 1, id, args => settles_compileWith (keeps_compileWithin c n) (settles_compileWithin c n)
      lt_of_compileWithin (leads_compileWithin adds_compileWith n) id args

/-! ## Attempts -/

/-- The registries that compiling one entry after the other leaves, whether it ends well or fails. -/
inductive Attempts (c : BuildContext) : Registry → Prop
  | start : Attempts c {}
  | next {r : Registry} (before : Attempts c r) (entry : MethodRef) :
    Attempts c (stateAfter (compileEntry c entry) r)

theorem Notes.settles (h : Notes r r') (c : BuildContext) : Settles c r r' :=
  (h.adds c).settled (by simp)

/-- **Every method that attempts leave** is completed or was given up. -/
theorem Attempts.settled (h : Attempts c r) : Settled c r := by
  have admits : AdmitsBinding c fun x => Keeps (Settles c) x := {
    closed := (growth_settles c).closed_keeps
    compile := settles_compileWithin c _
    discover := fun t => modify fun r => (notes_discoverClass c.program t r).settles c
    bind := fun index implementor => modify fun r =>
      (Notes.mk (extends_bindClass index implementor r) rfl rfl rfl).settles c }
  induction h with
  | start => exact Settled.empty c
  | next before entry ih => exact admits.compileEntry entry _ ih

theorem compileEntry_eq {resolved : ResolvedMethod}
    (h : c.program.resolveMethod entry = .ok resolved) :
    ∃ discover : Registry → Registry, (∀ r, Notes r (discover r)) ∧
      ∀ r, compileEntry c entry r =
        compileMethod c resolved.id resolved.declaringArgs (discover r) := by
  have resolves : ∀ r, (MonadExcept.ofExcept (c.program.resolveMethod entry) :
      RegistryM ResolvedMethod) r = .ok resolved r := fun r => state_ofExcept_ok.2 ⟨h, rfl⟩
  by_cases hstatic : resolved.method.isStatic
  · refine ⟨id, growth_notes.refl, fun r => ?_⟩
    unfold compileEntry
    rw [state_bind_of_ok (resolves r), if_pos hstatic]
    rfl
  · refine ⟨_, notes_discoverClass c.program (.named resolved.method.declaring
      resolved.declaringArgs), fun r => ?_⟩
    unfold compileEntry
    rw [state_bind_of_ok (resolves r), if_neg hstatic,
      state_bind_of_ok (a := PUnit.unit) (state_modify_ok.2 rfl)]

/-- The entry took the next index and was given up; from then on it counts as compiled. -/
structure LeftUnfinished (c : BuildContext) (entry : MethodRef) (r r' : Registry) : Prop where
  unfinished : UnfinishedAt r' r.methods.size
  again : ∀ s, Extends r' s →
    ∃ s', compileEntry c entry s = .ok r.methods.size s' ∧ s'.methods = s.methods

/-- **An entry that fails** is refused, or it is left unfinished. -/
theorem compileEntry_error (hr : Settled c r) (h : compileEntry c entry r = .error e r') :
    Refused (compileEntry c entry) e r r' ∨ LeftUnfinished c entry r r' := by
  cases hresolved : c.program.resolveMethod entry with
  | error e' =>
    have hend : ∀ s, compileEntry c entry s = .error e' s := fun s => by
      unfold compileEntry
      rw [hresolved]
      rfl
    rw [hend] at h
    cases h
    exact .inl ⟨growth_notes.refl _, fun s _ => outcome_error.2 ⟨s, hend s⟩⟩
  | ok resolved =>
    obtain ⟨discover, hnotes, heq⟩ := compileEntry_eq hresolved
    rw [heq] at h
    rcases compileWith_error (c := c) (compileWithin c (c.program.methods.size + 65535)) h with
      hrefused | ⟨m, body, r₁, entry', hm, hi, hreg, hentry, hcomplete⟩
    · refine .inl ⟨growth_notes.trans (hnotes r) hrefused.notes, fun s hs => ?_⟩
      have hsame : (discover s).methods = (discover r).methods := by
        rw [(hnotes s).methods, (hnotes r).methods, hs]
      rw [outcome, heq]
      exact hrefused.again _ hsame
    · obtain ⟨-, hu, hgrown⟩ := settled_of_incomplete (keeps_compileWithin c _)
        (settles_compileWithin c _) ((hnotes r).settles c hr) hreg hcomplete
      rw [(hnotes r).methods] at hu
      refine .inr ⟨hu, fun s hs => ?_⟩
      obtain ⟨-, slots, -, hpush⟩ := register_ok hreg
      have hfound : r₁.methodIndex? (m.signature c.program resolved.declaringArgs) =
          some r.methods.size := by
        rw [methodIndex?] at hi
        rw [methodIndex?, hpush, Array.findIdx?_push, hi, (hnotes r).methods]
        simp [newEntry]
      have hold : (discover s).methodIndex? (m.signature c.program resolved.declaringArgs) =
          some r.methods.size := by
        refine findIdx?_of_alike (fun i e he => ⟨e, ?_, rfl⟩) hfound
        rw [(hnotes s).methods, (growth_extends.trans hgrown hs).methods i
          (Array.getElem?_eq_some_iff.1 he).1, he]
      exact ⟨discover s, (heq s).trans (compileWith_known hm hold), (hnotes s).methods⟩

/-! ## Open operands -/

/-- The word of the operand lies in a chunk of its method. -/
def Inside (r : Registry) (f : Fixup) : Prop :=
  ∃ m chunk, r.methods[f.method]? = some m ∧ m.chunks[f.chunk]? = some chunk ∧
    f.position + 2 ≤ chunk.bytes.length

instance decidableInside (r : Registry) (f : Fixup) : Decidable (r.Inside f) :=
  decidable_of_iff ((r.methods[f.method]?.any fun m => m.chunks[f.chunk]?.any fun chunk =>
      decide (f.position + 2 ≤ chunk.bytes.length)) = true)
    (by simp [Inside, Option.any_eq_true])

section
variable {c : BuildContext} {f : Fixup}

theorem inside_of_chunks {pieces : List (List Piece)} {value : Nat → Nat → LinkOperand → UInt16}
    (hm : r.methods[f.method]? = some m) (hchunks : m.chunks.toList = Chunk.chunksFor value pieces)
    (hf : f ∈ openOperands f.method 0 pieces) : r.Inside f := by
  obtain ⟨-, -, ps, hps, hlink⟩ := mem_openOperands.1 hf
  obtain ⟨offset, hchunk⟩ := Chunk.getElem?_chunk hps
  have hchunk := hchunk value
  rw [← hchunks, Array.getElem?_toList] at hchunk
  have hle := Piece.add_le_of_mem_links hlink
  exact ⟨m, _, hm, hchunk, by simpa using hle⟩

theorem chunks_of_blank (h : blank m = m) : m.chunks = #[] := by
  rw [← h]
  rfl

/-- **An open operand lies in its method** unless the method was given up. -/
theorem Settled.inside_iff (h : Settled c r) (hf : f ∈ r.fixups) :
    r.Inside f ↔ ¬UnfinishedAt r f.method := by
  constructor
  · rintro ⟨m, chunk, hm, hchunk, -⟩ ⟨m', hm', hblank⟩
    cases Option.some.inj (hm.symm.trans hm')
    simp [chunks_of_blank hblank] at hchunk
  · intro hfinished
    obtain ⟨m, d, body, l, ops, hm, hc⟩ :=
      (h.methods f.method (h.tidy f hf)).resolve_right hfinished
    exact inside_of_chunks hm hc.chunks_eq (hc.mem_openOperands hf rfl)

end

/-! ## The link -/

section
variable {c : BuildContext} {r₂ : Registry} {iterations : Nat} {s t : TypeTables}
  {done rest : List Fixup} {f : Fixup} {p : Program}

/-- The method has no code. -/
def Codeless (r : Registry) (index : Nat) : Prop :=
  ∀ m, r.methods[index]? = some m → m.chunks = #[]

theorem Codeless.patch (h : Codeless r index) (f : Fixup) (w : UInt16) :
    Codeless (r.patch f w) index := by
  intro m hm
  rw [Registry.patch, modifyMethod, Array.getElem?_modify] at hm
  split at hm
  · obtain ⟨m', hm', rfl⟩ := Option.map_eq_some_iff.1 hm
    simp [h m' hm']
  · exact h m hm

theorem Codeless.fold (h : Codeless r index)
    (hfold : done.foldlM (applyFixup p) s r = .ok t r₂) : Codeless r₂ index := by
  refine state_foldlM_ok (fun _ _ r₂ => Codeless r₂ index) ?_ h hfold
  intro done t₁ f r₁ t₂ r₂ hcodeless hstep
  obtain ⟨w, -, -, rfl⟩ := applyFixup_ok hstep
  exact hcodeless.patch f w

theorem Codeless.not_applyFixup (h : Codeless r f.method) (t' : TypeTables)
    (r' : Registry) : applyFixup p t f r ≠ .ok t' r' := by
  intro happly
  obtain ⟨w, -, hsite, -⟩ := applyFixup_ok happly
  unfold checkSite at hsite
  cases hm : r.methods[f.method]? with
  | none =>
    rw [hm] at hsite
    cases hsite
  | some m =>
    rw [hm] at hsite
    simp [h m hm] at hsite

theorem UnfinishedAt.codeless (h : UnfinishedAt r index) :
    Codeless { r.blockCallers with fixups := #[] } index := by
  intro m hm
  obtain ⟨m₀, hm₀, hblank⟩ := h
  have hchunks := chunks_of_blank hblank
  obtain ⟨status, hstatus, -⟩ := (blocks_blockCallers r).entry index m₀ hm₀
  cases Option.some.inj (hm.symm.trans hstatus)
  exact hchunks

/-- An operand of a completed method lies in its code while the link writes the others. -/
theorem inside_of_fold (hc : CompletedAt c r f.method) (hf : f ∈ r.fixups)
    (hdone : ∀ g ∈ done, g ∈ r.fixups)
    (hfold : done.foldlM (applyFixup c.program) s { r.blockCallers with fixups := #[] } = .ok t r₂) :
    r₂.Inside f := by
  obtain ⟨m, d, body, l, ops, hm, hc⟩ := hc
  obtain ⟨status, hstatus, -⟩ := (blocks_blockCallers r).entry f.method m hm
  have hpatched : Patched c.program { r.blockCallers with fixups := #[] } f.method
      { m with cStatus := status } (ops.map (·.pieces)) done t r₂ :=
    patched_of_fold hstatus hc.chunks_eq (fun g hg hk => hc.mem_openOperands (hdone g hg) hk) hfold
  obtain ⟨value, hvalue, -⟩ := hpatched.entry
  exact inside_of_chunks hvalue rfl (hc.mem_openOperands hf rfl)

theorem adds_bindSlots (hr : Settled c r) (h : bindSlots c r = .ok iterations r₁) :
    Adds c [] r r₁ := (admitsBinding_completes c).bindSlots _ _ _ h hr.tidy

theorem Adds.unfinished_iff (h : Adds c [] r r₁) (index : Nat) :
    UnfinishedAt r₁ index ↔ UnfinishedAt r index := by
  refine ⟨fun hu => ?_, fun hu => hu.mono h.extension⟩
  by_cases hlt : index < r.methods.size
  · obtain ⟨m, hm, hblank⟩ := hu
    exact ⟨m, (h.extension.methods index hlt).symm.trans hm, hblank⟩
  · exact absurd hu (h.completed index (Nat.le_of_not_lt hlt) hu.lt).not_unfinished

end

/-! ## What attempts leave -/

/-- The method has a chunk for every instruction of its body. -/
def CoveredAt (c : BuildContext) (r : Registry) (index : Nat) : Prop :=
  ∃ m d body l ops, r.methods[index]? = some m ∧ Completed c r index m d body l ops ∧
    m.chunks.size = body.code.size

/-- The operand lies in its method when the link comes to it, or its method was given up and nothing
is written. -/
def WritesInside (c : BuildContext) (r : Registry) (t : TypeTables) (f : Fixup) (r₂ : Registry) :
    Prop :=
  ¬UnfinishedAt r f.method ∧ r₂.Inside f ∨
    UnfinishedAt r f.method ∧ ∀ t' r', applyFixup c.program t f r₂ ≠ .ok t' r'

/-- What a registry holds that attempts left, and what can follow. -/
structure Accounted (c : BuildContext) (r : Registry) : Prop where
  methods : ∀ i < r.methods.size, CoveredAt c r i ∨ UnfinishedAt r i
  fixups : ∀ f ∈ r.fixups, f.method < r.methods.size ∧ (r.Inside f ↔ ¬UnfinishedAt r f.method)
  /-- Attempts that end well give up no method. -/
  success : ∀ entry index r', compileEntry c entry r = .ok index r' →
    index < r'.methods.size ∧ ∀ i, UnfinishedAt r' i ↔ UnfinishedAt r i
  failure : ∀ entry e r', compileEntry c entry r = .error e r' →
    Refused (compileEntry c entry) e r r' ∨ LeftUnfinished c entry r r'
  /-- The link, once all slots are bound and the operands of `done` are written. -/
  writes : ∀ iterations r₁ done f rest s t r₂, bindSlots c r = .ok iterations r₁ →
    r₁.fixups.toList = done ++ f :: rest →
    done.foldlM (applyFixup c.program) s { r₁.blockCallers with fixups := #[] } = .ok t r₂ →
    WritesInside c r t f r₂
  link : ∀ linked r', link c r = .ok linked r' → ∀ f ∈ r.fixups, ¬UnfinishedAt r f.method

section
variable {c : BuildContext}

theorem lt_of_compileEntry (h : compileEntry c entry r = .ok index r') :
    index < r'.methods.size := by
  obtain ⟨resolved, r₁, hresolved, -⟩ := state_bind_ok.1 h
  obtain ⟨discover, -, heq⟩ := compileEntry_eq (state_ofExcept_ok.1 hresolved).1
  exact lt_of_compileWithin _ _ _ _ _ ((heq r).symm.trans h)

theorem Settled.writes (hr : Settled c r) {iterations : Nat} {r₂ : Registry} {s t : TypeTables}
    {done rest : List Fixup} {f : Fixup} (hbind : bindSlots c r = .ok iterations r₁)
    (hfixups : r₁.fixups.toList = done ++ f :: rest)
    (hfold : done.foldlM (applyFixup c.program) s { r₁.blockCallers with fixups := #[] } =
      .ok t r₂) :
    WritesInside c r t f r₂ := by
  have hadds := adds_bindSlots hr hbind
  have hr₁ := hadds.settled (by simp) hr
  have hmem : ∀ g ∈ done ++ f :: rest, g ∈ r₁.fixups := by
    intro g hg
    rw [← hfixups, Array.mem_toList_iff] at hg
    exact hg
  have hf := hmem f (by simp)
  rcases hr₁.methods f.method (hr₁.tidy f hf) with hc | hu
  · refine .inl ⟨fun hu => hc.not_unfinished (hu.mono hadds.extension), ?_⟩
    exact inside_of_fold hc hf (fun g hg => hmem g (by simp [hg])) hfold
  · exact .inr ⟨(hadds.unfinished_iff _).1 hu, (hu.codeless.fold hfold).not_applyFixup⟩

theorem Settled.finished_of_link (hr : Settled c r) {linked : Linked}
    (h : link c r = .ok linked r') : ∀ f ∈ r.fixups, ¬UnfinishedAt r f.method := by
  intro f hf hu
  obtain ⟨r₁, s, t, hbind, -, -, hfold, -⟩ := link_ok h
  obtain ⟨methods, hblocked⟩ := (blocks_blockCallers r₁).rest
  have hfixups : r₁.blockCallers.fixups = r₁.fixups := by rw [hblocked]
  have hmem : f ∈ r₁.fixups.toList :=
    (adds_bindSlots hr hbind).extension.fixups.subset (Array.mem_toList_iff.2 hf)
  obtain ⟨done, rest, hsplit⟩ := List.append_of_mem hmem
  rw [hfixups, hsplit, List.foldlM_append] at hfold
  obtain ⟨t₁, r₂, hdone, hrest⟩ := state_bind_ok.1 hfold
  obtain ⟨t₂, r₃, happly, -⟩ := state_bind_ok.1 hrest
  rcases hr.writes hbind hsplit hdone with ⟨hfinished, -⟩ | ⟨-, hnone⟩
  · exact hfinished hu
  · exact hnone t₂ r₃ happly

end

/-- **What attempts to compile leave behind.** A method is covered by its chunks, or it was given up
and has none; operands that wait lie in methods that were not given up. An attempt that ends well gives
up no method. One that fails was refused and will be again, or it leaves its method behind, which then
counts as compiled. The link writes inside chunks only, and it fails if an operand of a method that
was given up waits for it. -/
theorem attempts_accounted {c : BuildContext} {r : Registry} (h : Attempts c r) :
    Accounted c r := by
  have hr := h.settled
  refine ⟨fun i hi => ?_, fun f hf => ⟨hr.tidy f hf, hr.inside_iff hf⟩, fun entry index r' hentry => ?_,
    fun entry e r' hentry => compileEntry_error hr hentry, fun _ _ _ _ _ _ _ _ => hr.writes,
    fun linked r' => hr.finished_of_link⟩
  · refine (hr.methods i hi).imp_left fun hc => ?_
    obtain ⟨m, d, body, l, ops, hm, hc⟩ := hc
    exact ⟨m, d, body, l, ops, hm, hc, hc.size_chunks⟩
  · have hadds := (admitsBinding_completes c).compileEntry entry _ _ _ hentry hr.tidy
    exact ⟨lt_of_compileEntry hentry, hadds.unfinished_iff⟩

/-- A program with a method that reads a field and then an argument that it does not have, and one that
reads the field only. -/
def pump : BuildContext where
  program := {
    types := #[{ name := "P", methods := [⟨0⟩, ⟨1⟩]
                 fields := [⟨"count", .primitive .i32, true⟩] }]
    methods := #[
      { name := "Main", declaring := ⟨0⟩, ret := .primitive .i32, isStatic := true
        body := some { code := #[{ op := .field true .load ⟨.named ⟨0⟩ [], "count"⟩ },
          { op := .slot .arguments .load 9 }, { op := .pop }, { op := .ret }] } },
      { name := "Get", declaring := ⟨0⟩, ret := .primitive .i32, isStatic := true
        body := some { code := #[{ op := .field true .load ⟨.named ⟨0⟩ [], "count"⟩ },
          { op := .ret }] } }] }

def pumpEntry (name : String) : MethodRef := ⟨.named ⟨0⟩ [], name, [], .primitive .i32, false⟩

/-- What is left when `Main` has failed, and when `Get` is compiled after that. -/
def pumpFailed : Registry := stateAfter (compileEntry pump (pumpEntry "Main")) {}

def pumpLater : Registry := stateAfter (compileEntry pump (pumpEntry "Get")) pumpFailed

theorem pump_accounted : Attempts pump pumpLater ∧ Accounted pump pumpLater ∧
    UnfinishedAt pumpLater 0 ∧ CoveredAt pump pumpLater 1 ∧
    ∀ linked r', link pump pumpLater ≠ .ok linked r' := by
  have hattempts : Attempts pump pumpLater :=
    (Attempts.start.next (pumpEntry "Main")).next (pumpEntry "Get")
  have haccounted := attempts_accounted hattempts
  have hunfinished : UnfinishedAt pumpLater 0 := by decide +kernel
  have hfixups : (pumpLater.fixups.any fun f => f.method == 0) = true := by decide +kernel
  have hsize : 1 < pumpLater.methods.size := by decide +kernel
  refine ⟨hattempts, haccounted, hunfinished,
    (haccounted.methods 1 hsize).resolve_right (by decide +kernel), fun linked r' hlink => ?_⟩
  obtain ⟨i, hi, hmethod⟩ := Array.any_eq_true.1 hfixups
  refine haccounted.link linked r' hlink _ (Array.getElem_mem hi) ?_
  rw [beq_iff_eq] at hmethod
  rw [hmethod]
  exact hunfinished

/-- **A method that was given up stays in the registry**: it has no chunk for its four instructions, an
operand of it waits for the link, and the entry that failed counts as compiled on the second attempt. -/
theorem pump_left_behind :
    outcome (compileEntry pump (pumpEntry "Main")) {} =
      .error (.unresolvableReference "argument" "P.Main() #9") ∧
    pumpFailed.methods.map (fun m => (m.name, m.lines.size, m.chunks.size)) = #[("P.Main()", 4, 0)] ∧
    (∃ f ∈ pumpFailed.fixups, ¬pumpFailed.Inside f) ∧
    outcome (compileEntry pump (pumpEntry "Main")) pumpFailed = .ok 0 := by
  decide +kernel

end Registry

end DeviceCode
