import DeviceCode.Proofs.CUnit.Plan
import DeviceCode.Proofs.Registry.Dispatch
import DeviceCode.Proofs.StackProfile.Arrivals

/-!
# The flow of types through a body

A plan gives the types of the operands before each instruction. It is made in one walk that visits an
instruction once, on the types that the first way to it carries. `CPlan.Enters` says which types a way
carries, without the walk. Main statement: `types_flow`, for every compiled method: the types of a plan
are what all ways carry, and where planning finds that types disagree, two ways do.

`Unanimous`: no single instruction finds that ways disagree, so that only the comparison with what was
recorded can.
-/

namespace DeviceCode

open Op

open CEmitter

open COperand

open List

variable {code : Array Instruction} {instruction : Instruction} {j i : Nat} {types : List CType}
  {m : CompiledMethod} {origin : Option Nat}

/-! ## Obstacles of single instructions -/

/-- The ways to an instruction disagree on the types. -/
def CObstacle.isDisagreement : CObstacle → Bool
  | typesDisagree _ _ _ => true
  | _ => false

/-- The computation finds no disagreement. -/
def Unanimous {α : Type} (x : Except CObstacle α) : Prop :=
  ∀ o, x = .error o → o.isDisagreement = false

namespace Unanimous

variable {α β : Type} {f : α → Except CObstacle β} {x : Except CObstacle α}

theorem ok (a : α) : Unanimous (.ok a) := fun _ h => by cases h

theorem pure (a : α) : Unanimous (Pure.pure a) := ok a

theorem error {o : CObstacle} (ho : o.isDisagreement = false) :
    Unanimous (.error o : Except CObstacle α) := fun _ h => by
  cases h
  exact ho

theorem bind (hx : Unanimous x) (hf : ∀ a, Unanimous (f a)) : Unanimous (x >>= f) := by
  cases x with
  | ok a => exact hf a
  | error o => exact error (hx o rfl)

theorem map (hx : Unanimous x) (f : α → β) : Unanimous (x.map f) := by
  cases x with
  | ok a => exact ok _
  | error o => exact error (hx o rfl)

theorem mapM (hf : ∀ a, Unanimous (f a)) :
    ∀ xs : List α, Unanimous (xs.mapM f)
  | [] => by
    exact pure _
  | x :: xs => by
    rw [mapM_cons]
    exact (hf x).bind fun _ => (mapM hf xs).bind fun _ => pure _

theorem foldlM {f : β → α → Except CObstacle β} (hf : ∀ b a, Unanimous (f b a)) (xs : List α)
    (b : β) : Unanimous (xs.foldlM f b) := by
  intro o h
  obtain ⟨_, x, _, b', -, -, hx⟩ := except_foldlM_error h
  exact hf b' x o hx

end Unanimous

namespace COperand

theorem unanimous_float (bits : UInt32) : Unanimous (COperand.float bits) := by
  unfold float
  split
  · exact .ok _
  · exact .error rfl

theorem unanimous_binary (op : BinaryOp) (a b : COperand) : Unanimous (COperand.binary op a b) := by
  have hfloat : Unanimous (floatBinary op a b) := by
    cases op <;> first | exact .ok _ | exact .error rfl
  unfold binary
  split
  · exact .error rfl
  · split
    · exact hfloat.map _
    · exact .ok _

theorem unanimous_neg (a : COperand) : Unanimous (COperand.neg a) := by
  unfold neg
  split
  · exact .error rfl
  · split <;> exact .ok _

theorem unanimous_complement (a : COperand) : Unanimous (COperand.complement a) := by
  unfold complement
  split
  · exact .ok _
  · exact .error rfl

theorem unanimous_convert (type : CType) (a : COperand) : Unanimous (COperand.convert type a) := by
  unfold convert
  split
  · exact .error rfl
  · exact .ok _

theorem unanimous_convertUnsigned (a : COperand) : Unanimous (COperand.convertUnsigned a) := by
  unfold convertUnsigned
  split
  · exact .ok _
  · exact .error rfl

theorem unanimous_compare (cmp : Comparison) (isUnsigned : Bool) (a b : COperand) :
    Unanimous (COperand.compare cmp isUnsigned a b) := by
  unfold compare
  split
  · exact .error rfl
  · exact .ok _

end COperand

namespace CEmitter

theorem unanimous_pop (e : CEmitter) : Unanimous e.pop := by
  unfold pop
  split
  · exact .ok _
  · exact .error rfl

theorem unanimous_popMany (e : CEmitter) (n : Nat) : Unanimous (e.popMany n) := by
  unfold popMany
  split
  · exact .error rfl
  · exact .ok _

theorem unanimous_settle : ∀ (n depth : Nat) (e : CEmitter), Unanimous (settle n depth e)
  | 0, _, _ => .error rfl
  | n + 1, depth, e => by
    unfold settle
    split
    · exact .pure _
    · split
      · exact .pure _
      · refine Unanimous.bind (.foldlM (fun e other => ?_) _ _) fun e => ?_
        · split
          · exact unanimous_settle n other e
          · exact .ok _
        · split <;> exact .pure _

theorem unanimous_spill (e : CEmitter) (test : COperand → Bool) : Unanimous (e.spill test) := by
  refine .foldlM (fun e depth => ?_) _ _
  split
  · split
    · exact unanimous_settle _ _ _
    · exact .ok _
  · exact .ok _

theorem unanimous_branchOperand (e : CEmitter) : Unanimous e.branchOperand := by
  refine (unanimous_pop e).bind fun ⟨cond, e⟩ => ?_
  dsimp only
  split <;> exact .pure _

theorem unanimous_unary (e : CEmitter) {f : COperand → Except CObstacle COperand}
    (hf : ∀ a, Unanimous (f a)) : Unanimous (e.unary f) :=
  (unanimous_pop e).bind fun _ => (hf _).bind fun _ => .pure _

theorem unanimous_binary (e : CEmitter) {f : COperand → COperand → Except CObstacle COperand}
    (hf : ∀ a b, Unanimous (f a b)) : Unanimous (e.binary f) :=
  (unanimous_pop e).bind fun _ => (unanimous_pop _).bind fun _ => (hf _ _).bind fun _ => .pure _

theorem unanimous_jumpIf (e : CEmitter) (sense : Bool) (target : Nat) :
    Unanimous (e.jumpIf sense target) :=
  (unanimous_branchOperand e).bind fun _ => .pure _

theorem unanimous_dup (e : CEmitter) : Unanimous e.dup := by
  unfold dup
  split
  · exact .error rfl
  · dsimp only
    split
    · refine (Unanimous.pure e).bind fun e => ?_
      split
      · exact .error rfl
      · exact .pure _
    · refine (unanimous_settle _ _ e).bind fun e => ?_
      split
      · exact .error rfl
      · exact .pure _

theorem unanimous_ret (s : CScope) (e : CEmitter) (last : Bool) : Unanimous (e.ret s last) := by
  unfold ret
  split
  · exact .error rfl
  · exact .error rfl
  · exact .error rfl
  · exact .ok _
  · exact (unanimous_pop e).bind fun _ => .pure _

theorem unanimous_store (e : CEmitter) (place : CPlace) (v : CVar) : Unanimous (e.store place v) :=
  (unanimous_pop e).bind fun _ => (unanimous_spill _ _).bind fun _ => .pure _

theorem unanimous_argument (s : CScope) (n : UInt16) : Unanimous (argument s n) := by
  unfold argument
  split
  · exact .error rfl
  · split
    · exact .error rfl
    · exact .ok _

theorem unanimous_localType (s : CScope) (n : UInt16) : Unanimous (localType s n) := by
  unfold localType
  split
  · exact .error rfl
  · split
    · exact .error rfl
    · exact .ok _

theorem unanimous_staticOffset (s : CScope) (key : String) : Unanimous (staticOffset s key) := by
  unfold staticOffset
  split
  · exact .ok _
  · split
    · exact .ok _
    · exact .error rfl

theorem unanimous_staticField (s : CScope) (index : Nat) (op : Op) :
    Unanimous (staticField s index op) := by
  unfold staticField
  split
  · split
    · exact .error rfl
    · split
      · exact .error rfl
      · exact (unanimous_staticOffset s _).bind fun _ => .pure _
  · exact .error rfl

theorem unanimous_callBuiltin (s : CScope) (e : CEmitter) (id : UInt16) (pops : Nat)
    (ret : Option Storage) : Unanimous (e.callBuiltin s id pops ret) := by
  unfold callBuiltin
  split
  · exact .error rfl
  · dsimp only
    split
    · exact .error rfl
    · split
      · exact .error rfl
      · refine (unanimous_popMany e pops).bind fun ⟨args, e⟩ => ?_
        split
        · exact .error rfl
        · exact .pure _

theorem unanimous_resultType (m : CompiledMethod) : Unanimous (resultType m) := by
  unfold resultType
  split
  · exact .ok _
  · split
    · exact .ok _
    · exact .error rfl
  · exact .ok _
  · exact .error rfl

theorem unanimous_argumentSlots (m : CompiledMethod) : Unanimous (argumentSlots m) := by
  refine .mapM (fun slot => ?_) _
  split
  · exact .ok _
  · exact .error rfl

theorem unanimous_callMethod (s : CScope) (e : CEmitter) (callee : Nat) :
    Unanimous (e.callMethod s callee) := by
  unfold callMethod
  split
  · exact .error rfl
  · rename_i target _
    split
    · exact .error rfl
    · refine (unanimous_resultType target).bind fun ret => ?_
      refine (unanimous_argumentSlots target).bind fun slots => ?_
      refine (unanimous_popMany e _).bind fun ⟨args, e⟩ => ?_
      refine (unanimous_spill e _).bind fun e => ?_
      split
      · exact .pure _
      · exact (unanimous_spill e _).bind fun _ => .pure _

/-- **Writing a single instruction** finds no disagreement. -/
theorem unanimous_step (s : CScope) (index : Nat) (op : Op) (last : Bool) (e : CEmitter) :
    Unanimous (e.step s index op last) := by
  cases op with
  | nop => exact .ok _
  | slot area access n =>
    cases area with
    | arguments =>
      cases access with
      | load => exact (unanimous_argument s n).bind fun _ => .pure _
      | store => exact (unanimous_argument s n).bind fun _ => unanimous_store _ _ _
      | address => exact .error rfl
    | locals =>
      cases access with
      | load => exact (unanimous_localType s n).bind fun _ => .pure _
      | store => exact (unanimous_localType s n).bind fun _ => unanimous_store _ _ _
      | address => exact .error rfl
  | const value =>
    cases value with
    | i4 v | i8 v => exact .ok _
    | r4 bits | r8 bits => exact (unanimous_float _).bind fun _ => .pure _
  | null => exact .ok _
  | dup => exact unanimous_dup e
  | pop => exact (unanimous_pop e).bind fun _ => .pure _
  | ret => exact unanimous_ret s e last
  | jump t => exact .ok _
  | jumpIf sense t => exact unanimous_jumpIf e sense _
  | jumpCmp cmp isUnsigned t =>
    exact (unanimous_binary e (unanimous_compare cmp isUnsigned)).bind fun _ =>
      unanimous_jumpIf _ _ _
  | switch targets => exact (unanimous_branchOperand e).bind fun _ => .pure _
  | binary op => exact unanimous_binary e (COperand.unanimous_binary op)
  | neg => exact unanimous_unary e unanimous_neg
  | not => exact unanimous_unary e unanimous_complement
  | conv p =>
    unfold step
    refine unanimous_unary e fun a => ?_
    split
    · exact unanimous_convert _ a
    · exact .error rfl
  | convUnsignedToFloat => exact unanimous_unary e unanimous_convertUnsigned
  | compare relation isUnsigned => exact unanimous_binary e (unanimous_compare _ isUnsigned)
  | field isStatic access f =>
    cases isStatic with
    | false => cases access <;> exact .error rfl
    | true =>
      cases access with
      | load => exact (unanimous_staticField s index _).bind fun _ => .pure _
      | store => exact (unanimous_staticField s index _).bind fun _ => unanimous_store _ _ _
      | address => exact .error rfl
  | call isVirtual m =>
    intro o h
    unfold step at h
    cases hsite : s.method.sites[index]? with
    | none =>
      rw [hsite] at h
      cases h
      rfl
    | some site =>
      rw [hsite] at h
      cases site with
      | call target pops ret =>
        cases target with
        | builtin id => exact unanimous_callBuiltin s e id pops ret o h
        | user callee => exact unanimous_callMethod s e callee o h
        | slot _ =>
          cases h
          rfl
      | _ =>
        cases h
        rfl
  | _ => exact .error rfl

end CEmitter

theorem StackProfile.Describes.lt_of_successor {effect : Nat → Op → Nat × Nat}
    {profile : StackProfile} (h : Describes code effect profile) {v : Visit}
    (hv : v ∈ profile.order) (hcode : code[v.index]? = some instruction)
    (hj : j ∈ instruction.op.successors v.index code.size) : j < code.size := by
  obtain ⟨d, hd⟩ := Option.isSome_iff_exists.1 ((h.listed v.index).2 ⟨v, hv, rfl⟩)
  obtain ⟨i, hfits, -⟩ := h.fits v.index d hd
  obtain rfl : instruction = i := Option.some.inj (hcode.symm.trans hfits.there)
  exact lt_of_mem_successors hfits.targets hj

namespace CPlan

/-! ## Ways -/

/-- Some way through the body comes to the instruction at an index with operands of those types, from
the instruction `origin` or from the start. -/
inductive Enters (s : CScope) (code : Array Instruction) : Option Nat → Nat → List CType → Prop
  | start (inside : 0 < code.size) : Enters s code none 0 []
  | edge {origin : Option Nat} {i j : Nat} {before : List CType} {instruction : Instruction}
    {e : CEmitter} (way : Enters s code origin i before) (there : code[i]? = some instruction)
    (writes : CEmitter.step s i instruction.op (i + 1 == code.size)
      { stack := CEmitter.canonicalStack before } = .ok e)
    (next : j ∈ instruction.op.successors i code.size) : Enters s code (some i) j e.types

section
variable {s : CScope} {done : List Visit} {entries entries' : Array (Option (List CType))}
  {v : Visit} {effect : Nat → Op → Nat × Nat}

/-- The entries come from the ways through the instructions that were visited. -/
def Sourced (s : CScope) (code : Array Instruction) (done : List Visit)
    (entries : Array (Option (List CType))) : Prop :=
  ∀ (j : Nat) types, entries[j]?.join = some types → ∃ origin, Enters s code origin j types ∧
    ∀ i, origin = some i → i ∈ done.map (·.index)

theorem sourced_start :
    Sourced s code [] (noVisits code) := by
  intro j types h
  obtain ⟨rfl, hpos, rfl⟩ := entry_start h
  exact ⟨none, .start hpos, fun i hi => by cases hi⟩

theorem Sourced.edge (h : Sourced s code done entries)
    (htypes : entries[v.index]?.join = some types) (hcode : code[v.index]? = some instruction)
    {e : CEmitter} (hstep : CEmitter.step s v.index instruction.op (v.index + 1 == code.size)
      { stack := CEmitter.canonicalStack types } = .ok e)
    (hj : j ∈ instruction.op.successors v.index code.size) :
    Enters s code (some v.index) j e.types := by
  obtain ⟨origin, hway, -⟩ := h v.index types htypes
  exact .edge hway hcode hstep hj

theorem Sourced.visit (h : Sourced s code done entries)
    (htypes : entries[v.index]?.join = some types) (hcode : code[v.index]? = some instruction)
    (hsuccessors : ∀ j ∈ instruction.op.successors v.index code.size, j < entries.size)
    (hvisit : visit s code entries v = .ok entries') : Sourced s code (done ++ [v]) entries' := by
  unfold CPlan.visit at hvisit
  rw [hcode, htypes] at hvisit
  obtain ⟨e, hstep, hjoin⟩ := except_bind_ok.1 hvisit
  have hjoined := joined_of_foldlM hsuccessors hjoin
  intro j known hj
  rcases hjoined.origin j known hj with hj | ⟨hmem, rfl⟩
  · obtain ⟨origin, hway, hdone⟩ := h j known hj
    refine ⟨origin, hway, fun i hi => ?_⟩
    rw [map_append, mem_append]
    exact .inl (hdone i hi)
  · refine ⟨some v.index, h.edge htypes hcode hstep hmem, fun i hi => ?_⟩
    cases hi
    simp

theorem sourced_of_walk (hprofile : StackProfile.Describes code effect s.method.profile)
    {rest : List Visit} (hsplit : s.method.profile.order.toList = done ++ rest)
    (hwalk : done.foldlM (visit s code) (noVisits code) = .ok entries) :
    Visited s code done entries ∧ Sourced s code done entries := by
  refine visited_of_walk hprofile sourced_start
    (fun hvisited hv hcode htypes hvisit hsourced => ?_) hsplit hwalk
  refine hsourced.visit htypes hcode (fun j hj => ?_) hvisit
  rw [hvisited.size]
  exact hprofile.lt_of_successor hv hcode hj

end

/-! ## The flow of types -/

/-- The plan says what types the ways through the body carry. -/
structure TypeFlow (s : CScope) (code : Array Instruction) (plan : CPlan) : Prop where
  reachable : ∀ i, (plan.entry? i).isSome ↔ s.method.profile.isReachable i = true
  start : 0 < code.size → plan.entry? 0 = some []
  /-- An instruction that can be reached is written on canonical temporaries of its types, and it
  leaves the types of each of its successors. -/
  edges : ∀ (i : Nat) instruction, s.method.profile.isReachable i = true →
    code[i]? = some instruction → ∃ types e, plan.entry? i = some types ∧
      CEmitter.step s i instruction.op (i + 1 == code.size)
        { stack := CEmitter.canonicalStack types } = .ok e ∧
      ∀ j ∈ instruction.op.successors i code.size, plan.entry? j = some e.types
  /-- All ways to an instruction carry its types. -/
  ways : ∀ i types, plan.entry? i = some types ↔ ∃ origin, Enters s code origin i types

section
variable {s : CScope} (hs : s.layout = none) {effect : Nat → Op → Nat × Nat}
  (hprofile : StackProfile.Describes code effect s.method.profile)
include hs hprofile

/-- **A plan is the flow of types** through its body. -/
theorem typeFlow_of_ofMethod {plan : CPlan}
    (h : ofMethod s.methods s.builtins s.method code = .ok plan) : TypeFlow s code plan := by
  rw [ofMethod_eq hs] at h
  obtain ⟨entries, hwalk, hplan⟩ := except_bind_ok.1 h
  cases hplan
  obtain ⟨hvisited, hsourced⟩ := sourced_of_walk hprofile (append_nil _).symm hwalk
  have edges : ∀ (i : Nat) instruction, s.method.profile.isReachable i = true →
      code[i]? = some instruction → ∃ types e, entries[i]?.join = some types ∧
        step s i instruction.op (i + 1 == code.size) { stack := canonicalStack types } = .ok e ∧
        ∀ j ∈ instruction.op.successors i code.size, entries[j]?.join = some e.types := by
    intro i instruction hi hcode
    obtain ⟨v, hv, rfl⟩ := (hprofile.listed i).1 hi
    obtain ⟨types, htypes, types', htyping, hnext⟩ :=
      hvisited.passed v (Array.mem_toList_iff.2 hv) instruction hcode
    have hclasses := hvisited.classes v.index types htypes
    have hbefore : CEmitter.types { stack := CEmitter.canonicalStack types } = types :=
      CEmitter.types_of_stack hclasses rfl
    rw [← hbefore] at htyping
    obtain ⟨e, hstep, -, hafter⟩ := htyping.step (valid_of_stack hclasses rfl)
      (v.index + 1 == code.size)
    exact ⟨types, e, htypes, hstep, hafter ▸ hnext⟩
  refine ⟨fun i => ⟨fun hi => ?_, fun hi => ?_⟩, hvisited.start, edges,
    fun i types => ⟨fun hi => ?_, ?_⟩⟩
  · obtain ⟨types, htypes⟩ := Option.isSome_iff_exists.1 hi
    exact hvisited.listed i types htypes
  · obtain ⟨v, hv, rfl⟩ := (hprofile.listed i).1 hi
    obtain ⟨instruction, hcode⟩ := exists_of_mem_order hprofile hv
    obtain ⟨types, -, htypes, -⟩ := edges v.index instruction hi hcode
    exact Option.isSome_iff_exists.2 ⟨types, htypes⟩
  · obtain ⟨origin, hway, -⟩ := hsourced i types hi
    exact ⟨origin, hway⟩
  · -- by induction on the way: what is written there is what the plan passes on
    rintro ⟨origin, hway⟩
    induction hway with
    | start inside => exact hvisited.start inside
    | edge way there writes next ih =>
      obtain ⟨types, e', htypes, hstep, hnext⟩ := edges _ _ (hvisited.listed _ _ ih) there
      cases Option.some.inj (ih.symm.trans htypes)
      cases Except.ok.inj (writes.symm.trans hstep)
      exact hnext _ next

/-- **Types that disagree** are carried to the instruction on two ways. -/
theorem conflict_of_ofMethod (hexact : StackProfile.Exact code effect s.method.profile)
    {known found : List CType}
    (h : ofMethod s.methods s.builtins s.method code = .error (.typesDisagree j known found)) :
    ∃ origin origin', origin ≠ origin' ∧ known ≠ found ∧ Enters s code origin j known ∧
      Enters s code origin' j found := by
  rw [ofMethod_eq hs] at h
  obtain hwalk | ⟨entries, -, h⟩ := except_bind_error.1 h
  case inr => cases h
  obtain ⟨done, v, rest, entries, hsplit, hdone, hvisit⟩ := except_foldlM_error hwalk
  obtain ⟨hvisited, hsourced⟩ := sourced_of_walk hprofile hsplit hdone
  have hv := mem_order_of_split hsplit
  obtain ⟨instruction, hcode⟩ := exists_of_mem_order hprofile hv
  obtain ⟨types, htypes⟩ := hvisited.known (hprofile.follows done v rest hsplit)
    (Array.getElem?_eq_some_iff.1 hcode).1
  unfold CPlan.visit at hvisit
  rw [hcode, htypes] at hvisit
  obtain hstep | ⟨e, hstep, hjoin⟩ := except_bind_error.1 hvisit
  · cases unanimous_step _ _ _ _ _ _ hstep
  · -- the successors that were joined before have the types that are passed on
    obtain ⟨nexts, next, others, entries₁, hsuccessors, hjoined, hjoin⟩ := except_foldlM_error hjoin
    have hjoined := joined_of_foldlM (fun i hi => by
      rw [hvisited.size]
      exact hprofile.lt_of_successor hv hcode (by rw [hsuccessors]; exact mem_append_left _ hi))
      hjoined
    unfold join at hjoin
    split at hjoin
    · cases hjoin
    · rename_i known' hknown
      split at hjoin
      · cases hjoin
      · rename_i hne
        cases hjoin
        obtain hknown | ⟨-, hsame⟩ := hjoined.origin j known hknown
        · obtain ⟨origin, hway, hfrom⟩ := hsourced j known hknown
          refine ⟨origin, some v.index, ?_, hne, hway, hsourced.edge htypes hcode hstep ?_⟩
          · intro horigin
            have honce := hexact.once
            rw [hsplit, map_append] at honce
            exact (nodup_append.1 honce).2.2 _ (hfrom _ horigin) _ mem_cons_self rfl
          · rw [hsuccessors]
            simp
        · exact absurd hsame hne

end

/-! ## Depths -/

/-- The call takes the arguments of what it reaches and leaves its result; a builtin leaves one
value. -/
def CallAgrees (s : CScope) (ref : MethodRef) : Site → Prop
  | .call (.user k) _ _ => ∀ target, s.methods[k]? = some target →
    ref.pops = target.args.slots.size ∧ ref.pushes = target.ret.isSome.toNat
  | .call (.builtin _) _ _ => ref.pushes = 1
  | _ => True

/-- The calls that can be reached agree with what they reach. -/
def CallsAgree (s : CScope) (code : Array Instruction) : Prop :=
  ∀ (i : Nat) instruction isVirtual ref site, s.method.profile.isReachable i = true →
    code[i]? = some instruction → instruction.op = .call isVirtual ref →
    s.method.sites[i]? = some site → CallAgrees s ref site

/-- The sites of calls tell how many operands the calls take. -/
def SitesCount (s : CScope) (code : Array Instruction) : Prop :=
  ∀ (i : Nat) instruction isVirtual ref target pops storage, code[i]? = some instruction →
    instruction.op = .call isVirtual ref →
    s.method.sites[i]? = some (.call target pops storage) → pops = ref.pops

end CPlan

namespace CEmitter

theorem length_argumentSlots {slots : List (UInt16 × CType)} (h : argumentSlots m = .ok slots) :
    slots.length = m.args.slots.size := by
  have hlength := (except_mapM_ok.1 h).length_eq
  rw [← hlength, Array.length_toList]

theorem isSome_resultType {ret : Option CType} (h : resultType m = .ok ret) :
    ret.isSome = m.ret.isSome := by
  unfold resultType at h
  split at h
  · rename_i hret
    cases h
    rw [hret]
    rfl
  · rename_i hret
    split at h
    · cases h
      rw [hret]
      rfl
    · cases h
  · rename_i hret
    cases h
    rw [hret]
    rfl
  · cases h

/-- **The types before and after an instruction** are as many as its effect says. -/
theorem Typing.length {s : CScope} {index : Nat} {op : Op} {ts ts' : List CType}
    (h : Typing s index op ts ts')
    (hagree : ∀ isVirtual ref site, op = .call isVirtual ref → s.method.sites[index]? = some site →
      CPlan.CallAgrees s ref site)
    (hcount : ∀ isVirtual ref target pops storage, op = .call isVirtual ref →
      s.method.sites[index]? = some (.call target pops storage) → pops = ref.pops) :
    StackProfile.after (Registry.effectOf s.method) index op ts.length = ts'.length := by
  unfold StackProfile.after Registry.effectOf
  cases h with
  | nop => simp [effect]
  | load access => cases access <;> simp [effect]
  | literal literal => cases literal <;> simp [effect]
  | dup | pop => simp [effect]
  | store access => cases access <;> simp [effect]
  | compute computes =>
    cases computes with
    | library site known scalar arity handles =>
      have hpushes : MethodRef.pushes _ = 1 := hagree _ _ _ rfl site
      have hpops := hcount _ _ _ _ _ rfl site
      simp [effect, ← hpops, hpushes, arity]
    | _ => simp [effect]
  | branch branches => cases branches <;> simp [effect]
  | @call _ k target ret slots ts args calls arity =>
    obtain ⟨isVirtual, ref, rfl⟩ := calls.call
    obtain ⟨pops, storage, site⟩ := calls.site
    obtain ⟨hpops, hpushes⟩ := hagree _ _ _ rfl site _ calls.callee
    have hslots := length_argumentSlots calls.slots
    have hret := isSome_resultType calls.result
    simp only [effect, hpops, hpushes, length_append, arity, hslots, ← hret,
      Nat.add_sub_cancel]
    cases ret <;> rfl
  | returnNone void => simp [effect, void]
  | returnValue result =>
    obtain ⟨tag, narrowed, hret⟩ | hret := result <;> simp [effect, hret]

end CEmitter

namespace CPlan

variable {s : CScope} {plan : CPlan}

theorem Enters.classes (h : Enters s code origin i types) : ∀ t ∈ types, t.stackClass = t := by
  cases h with
  | start => simp
  | edge => exact types_class _

theorem Enters.depth
    (hprofile : StackProfile.Describes code (Registry.effectOf s.method) s.method.profile)
    (hagree : CallsAgree s code) (hcount : SitesCount s code) (h : Enters s code origin i types) :
    s.method.profile.depth? i = some types.length := by
  induction h with
  | start inside => exact hprofile.start inside
  | @edge origin i j before instruction e way there writes next ih =>
    obtain ⟨instruction', hfits, hnext⟩ := hprofile.fits _ _ ih
    obtain rfl := Option.some.inj (there.symm.trans hfits.there)
    obtain ⟨-, htyping⟩ := emits_of_step (valid_of_stack way.classes rfl) writes
    rw [types_of_stack way.classes rfl] at htyping
    have hreachable : s.method.profile.isReachable i = true := by
      rw [StackProfile.isReachable, ih]
      rfl
    rw [hnext _ next, htyping.length (fun isVirtual ref site =>
      hagree i instruction isVirtual ref site hreachable there) fun isVirtual ref target pops storage =>
      hcount i instruction isVirtual ref target pops storage there]

end CPlan

/-! ## Compiled methods -/

/-- What planning a method in a scope finds: the flow of types through its body, or two ways that
disagree. -/
structure CPlan.ExactFlow (s : CScope) (code : Array Instruction) : Prop where
  flow : ∀ plan, ofMethod s.methods s.builtins s.method code = .ok plan → TypeFlow s code plan
  depths : ∀ plan, ofMethod s.methods s.builtins s.method code = .ok plan → CallsAgree s code →
    ∀ i types, plan.entry? i = some types → s.method.profile.depth? i = some types.length
  conflict : ∀ j known found,
    ofMethod s.methods s.builtins s.method code = .error (.typesDisagree j known found) →
    ∃ origin origin', origin ≠ origin' ∧ known ≠ found ∧ Enters s code origin j known ∧
      Enters s code origin' j found

theorem CPlan.exactFlow_of_analyze {s : CScope} (hs : s.layout = none)
    (hprofile : StackProfile.analyze code (Registry.effectOf s.method) = .ok s.method.profile)
    (hcount : SitesCount s code) : ExactFlow s code := by
  have hdescribes := StackProfile.describes_of_analyze hprofile
  refine ⟨fun plan hplan => typeFlow_of_ofMethod hs hdescribes hplan,
    fun plan hplan hagree i types hi => ?_, fun j known found hplan =>
      conflict_of_ofMethod hs hdescribes (StackProfile.exact_of_analyze hprofile) hplan⟩
  obtain ⟨origin, hway⟩ := ((typeFlow_of_ofMethod hs hdescribes hplan).ways i types).1 hi
  exact hway.depth hdescribes hagree hcount

namespace Registry

theorem Lowered.sitesCount {c : BuildContext} {size : Nat} {d : MethodDef} {body : Body}
    {l : Lowering} {ops : List LoweredOp} (h : Lowered c size m d body l ops)
    (methods : Array CompiledMethod) (status : CStatus) :
    CPlan.SitesCount ⟨methods, c.builtins, none, { m with cStatus := status }⟩ body.code := by
  intro i instruction isVirtual ref target pops storage hcode hop hsite
  have hitem : body.code.toList.zipIdx[i]? = some (instruction, i) := by
    rw [getElem?_zipIdx, Array.getElem?_toList, hcode]
    simp
  obtain ⟨o, ho, hlowers⟩ := forall₂_getElem? h.lowers hitem
  rw [← Array.getElem?_toList, h.sites, getElem?_map, ho, Option.map_some] at hsite
  rw [hop] at hlowers
  cases hlowers with
  | plain hplain =>
    rw [Lowering.site_of_plain hplain] at hsite
    cases hsite
  | call => cases hsite; rfl

end Registry

/-- **The plan of a compiled method is the flow of types through its body.** An instruction has types
if it can be reached, the first one has none, and on canonical temporaries of its types an instruction
leaves those of its successors: they are what every way to it carries. Where calls agree with what they
reach they are as many as the profile counts. If the types disagree, then two ways carry different
ones. -/
theorem types_flow {c : BuildContext} {start : MethodRef} {index iterations : Nat} {r r' : Registry}
    (hentry : Registry.compileEntry c start {} = .ok index r)
    (hbind : Registry.bindSlots c r = .ok iterations r') {k : Nat} {m : CompiledMethod}
    (hm : r'.methods[k]? = some m) :
    ∃ d body, c.program.methodDef? m.method = some d ∧ d.body = some body ∧
      (∀ plan, m.cStatus = .planned plan → ∃ methods, Registry.Framed methods r'.methods ∧
        CPlan.ofMethod methods c.builtins { m with cStatus := .undecided } body.code = .ok plan) ∧
      ∀ methods, CPlan.ExactFlow ⟨methods, c.builtins, none, { m with cStatus := .undecided }⟩
        body.code := by
  obtain ⟨hcompleted, -⟩ := Registry.completed_of_bound hentry hbind
  obtain ⟨m', d, body, l, ops, hm', hc⟩ := hcompleted k (Array.getElem?_eq_some_iff.1 hm).1
  cases Option.some.inj (hm.symm.trans hm')
  exact ⟨d, body, hc.method, hc.source, hc.planned, fun methods =>
    CPlan.exactFlow_of_analyze rfl hc.profile (hc.toLowered.sitesCount methods .undecided)⟩

/-- A program where two ways meet: in `Pick` with operands of one type, and in `Blend` with an integer
on one of them and a float on the other. -/
def forks : BuildContext where
  program := {
    types := #[{ name := "P", methods := [⟨0⟩, ⟨1⟩, ⟨2⟩] }]
    methods := #[
      { name := "Main", declaring := ⟨0⟩, params := [.primitive .i32], ret := .primitive .i32
        isStatic := true
        body := some { code := #[{ op := .slot .arguments .load 0 },
          { op := .call false ⟨.named ⟨0⟩ [], "Pick", [.primitive .i32], .primitive .i32, false⟩ },
          { op := .call false ⟨.named ⟨0⟩ [], "Blend", [.primitive .i32], .primitive .i32, false⟩ },
          { op := .ret }] } },
      { name := "Pick", declaring := ⟨0⟩, params := [.primitive .i32], ret := .primitive .i32
        isStatic := true
        body := some { code := #[{ op := .slot .arguments .load 0 }, { op := .jumpIf true 5 },
          { op := .slot .arguments .load 0 },
          { op := .call false ⟨.named ⟨0⟩ [], "Pick", [.primitive .i32], .primitive .i32, false⟩ },
          { op := .jump 6 }, { op := .const (.i4 1) }, { op := .ret }] } },
      { name := "Blend", declaring := ⟨0⟩, params := [.primitive .i32], ret := .primitive .i32
        isStatic := true
        body := some { code := #[{ op := .slot .arguments .load 0 }, { op := .jumpIf true 4 },
          { op := .const (.i4 1) }, { op := .jump 5 }, { op := .const (.r4 0) }, { op := .ret }] } }] }

def forksEntry : MethodRef :=
  ⟨.named ⟨0⟩ [], "Main", [.primitive .i32], .primitive .i32, false⟩

def forksRegistry : Registry := stateAfter (Registry.compileEntry forks forksEntry) {}

def forksBound : Registry := stateAfter (Registry.bindSlots forks) forksRegistry

theorem forks_types_flow :
    ∃ index iterations pick blend plan d body d' body',
      Registry.compileEntry forks forksEntry {} = .ok index forksRegistry ∧
      Registry.bindSlots forks forksRegistry = .ok iterations forksBound ∧
      forksBound.methods[1]? = some pick ∧ forksBound.methods[2]? = some blend ∧
      forks.program.methodDef? pick.method = some d ∧ d.body = some body ∧
      forks.program.methodDef? blend.method = some d' ∧ d'.body = some body' ∧
      pick.cStatus = .planned plan ∧ plan.entry? 6 = some [.i4] ∧
      (∃ methods, CPlan.TypeFlow
        ⟨methods, forks.builtins, none, { pick with cStatus := .undecided }⟩ body.code plan) ∧
      ∃ origin origin', origin ≠ origin' ∧
        CPlan.Enters ⟨forksBound.methods, forks.builtins, none, { blend with cStatus := .undecided }⟩
          body'.code origin 5 [.r4] ∧
        CPlan.Enters ⟨forksBound.methods, forks.builtins, none, { blend with cStatus := .undecided }⟩
          body'.code origin' 5 [.i4] := by
  have hentry : ((Registry.compileEntry forks forksEntry).run' {}).isSome = true := by decide +kernel
  have hbind : ((Registry.bindSlots forks).run' forksRegistry).isSome = true := by decide +kernel
  have hpick : (forksBound.methods[1]?.any fun m =>
      m.cStatus.plan?.any fun plan => decide (plan.entry? 6 = some [.i4])) = true := by decide +kernel
  have hblend : (forksBound.methods[2]?.any fun m =>
      ((forks.program.methodDef? m.method).bind (·.body)).any fun body =>
        decide (CPlan.ofMethod forksBound.methods forks.builtins { m with cStatus := .undecided }
          body.code = .error (.typesDisagree 5 [.r4] [.i4]))) = true := by decide +kernel
  obtain ⟨index, hindex⟩ := Option.isSome_iff_exists.1 hentry
  obtain ⟨iterations, hiterations⟩ := Option.isSome_iff_exists.1 hbind
  obtain ⟨pick, hpick, hchecks⟩ := Option.any_eq_true _ _ |>.1 hpick
  obtain ⟨plan, hplan, hentries⟩ := Option.any_eq_true _ _ |>.1 hchecks
  obtain ⟨blend, hblend, hchecks'⟩ := Option.any_eq_true _ _ |>.1 hblend
  obtain ⟨d, body, hd, hbody, hrecorded, hflow⟩ :=
    types_flow (ok_of_run' hindex) (ok_of_run' hiterations) hpick
  obtain ⟨d', body', hd', hbody', -, hflow'⟩ :=
    types_flow (ok_of_run' hindex) (ok_of_run' hiterations) hblend
  have hplanned : pick.cStatus = .planned plan := by
    cases hstatus : pick.cStatus with
    | planned => simpa [hstatus, CStatus.plan?] using hplan
    | _ => simp [hstatus, CStatus.plan?] at hplan
  obtain ⟨methods, -, hofMethod⟩ := hrecorded plan hplanned
  simp only [hd', Option.bind_some, hbody', Option.any_some, decide_eq_true_eq] at hchecks'
  obtain ⟨origin, origin', hne, -, hway, hway'⟩ := (hflow' _).conflict _ _ _ hchecks'
  exact ⟨index, iterations, pick, blend, plan, d, body, d', body', ok_of_run' hindex,
    ok_of_run' hiterations, hpick, hblend, hd, hbody, hd', hbody', hplanned,
    of_decide_eq_true hentries, ⟨methods, (hflow methods).flow plan hofMethod⟩, origin, origin', hne,
    hway, hway'⟩

end DeviceCode
