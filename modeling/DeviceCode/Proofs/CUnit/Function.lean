import DeviceCode.Proofs.CUnit.Plan
import DeviceCode.Proofs.TypeTables

/-!
# The text of a function

A function is written instruction by instruction. An instruction is written on its head
(`CFunction.headAt`), behind its label if it has one, and leaves the state of the next one. Main
statements: a method with a sound plan can be written (`ofPlan_ok`), and in its text every target has a
label and every temporary is declared (`closed_ofPlan`).

The states are followed in the order of the text, but control reaches the instructions in another
order: that the temporaries at a label are declared is seen from an instruction that jumps there, which
may stand behind it (`States.covers_head`).
-/

namespace DeviceCode

open CEmitter

open List

variable {i : Nat} {types : List CType} {instruction : Instruction}

namespace CPlan

variable {s s' : CScope} {code : Array Instruction} {plan : CPlan}

theorem Sound.mono (h : Sound s code plan) (hs : s.Serves s') : Sound s' code plan := by
  refine { h with entry := fun i types hi => ?_ }
  obtain ⟨instruction, hcode, htargets, hclasses, types', htyping, hnext⟩ := h.entry i types hi
  exact ⟨instruction, hcode, htargets, hclasses, types', htyping.mono hs, hnext⟩

theorem Sound.entry_of_reaches (h : Sound s code plan) (hi : Reaches code i) :
    ∃ types, plan.entry? i = some types := by
  induction hi with
  | start inside => exact ⟨[], h.start inside⟩
  | @step i j instruction before there next ih =>
    obtain ⟨types, htypes⟩ := ih
    obtain ⟨instruction', hcode, -, -, types', -, hnext⟩ := h.entry i types htypes
    obtain rfl := Option.some.inj (there.symm.trans hcode)
    exact ⟨types', hnext j next⟩

/-- The types at the entry of an instruction. -/
def typesAt (plan : CPlan) (i : Nat) : List CType := plan.entry? i |>.getD []

theorem typesAt_eq (hi : plan.entry? i = some types) : plan.typesAt i = types := by
  rw [typesAt, hi, Option.getD_some]

theorem Sound.lt (h : Sound s code plan) (hi : plan.entry? i = some types) : i < code.size := by
  obtain ⟨instruction, hcode, -⟩ := h.entry i types hi
  exact (Array.getElem?_eq_some_iff.1 hcode).1

end CPlan

namespace CEmitter

/-! ## Heads -/

/-- What is written and declared at the first emitter is so at the second. -/
structure Before (e e' : CEmitter) : Prop where
  body : e.body.toList <+: e'.body.toList
  temporaries : ∀ t ∈ e.temporaries, t ∈ e'.temporaries

theorem Before.refl (e : CEmitter) : Before e e := ⟨prefix_rfl, fun _ h => h⟩

theorem Before.trans {e₁ e₂ e₃ : CEmitter} (h₁ : Before e₁ e₂) (h₂ : Before e₂ e₃) :
    Before e₁ e₃ :=
  ⟨h₁.body.trans h₂.body, fun t ht => h₂.temporaries t (h₁.temporaries t ht)⟩

theorem Writes.before {kind : CStmt → Prop} {e e' : CEmitter} (h : Writes kind e e') :
    Before e e' := by
  obtain ⟨new, hnew, -⟩ := h.body
  exact ⟨⟨new, hnew.symm⟩, h.temporaries⟩

/-- Where an instruction is written, if the instruction before it left `e`. -/
def headOf (plan : CPlan) (types : List CType) (e : CEmitter) (live : Bool) (index : Nat) : CEmitter :=
  if plan.isLabel index then
    let e := if live then e.materializeAll else e
    { e with stack := canonicalStack types }.write (.label index)
  else if live then e
  else { e with stack := canonicalStack types }

section
variable {plan : CPlan} {e : CEmitter} {live : Bool} {index : Nat}

theorem headOf_cases (hv : Valid e) (plan : CPlan) (types : List CType) (live : Bool) (index : Nat) :
    ∃ e₁, Writes CStmt.IsPlain e e₁ ∧ (live = true ∨ e₁ = e) ∧
    (headOf plan types e live index).temporaries = e₁.temporaries ∧
    (headOf plan types e live index).body.toList =
      e₁.body.toList ++ if plan.isLabel index then [.label index] else [] := by
  unfold headOf
  by_cases hlabel : plan.isLabel index = true
  · rw [if_pos hlabel, if_pos hlabel]
    cases live with
    | true =>
      exact ⟨e.materializeAll, (settling_materializeAll hv).writes, .inl rfl, rfl, by simp [write]⟩
    | false => exact ⟨e, Writes.refl _ e, .inr rfl, rfl, by simp [write]⟩
  · rw [if_neg hlabel, if_neg hlabel]
    refine ⟨e, Writes.refl _ e, .inr rfl, ?_, ?_⟩ <;> cases live <;> simp

theorem headOf_stack (h : plan.isLabel index = true ∨ live = false) :
    (headOf plan types e live index).stack = canonicalStack types := by
  unfold headOf
  by_cases hlabel : plan.isLabel index = true
  · rw [if_pos hlabel]
    rfl
  · rw [if_neg hlabel, h.resolve_left hlabel]
    rfl

theorem headOf_next (hlabel : plan.isLabel index = false) (types : List CType) :
    headOf plan types e true index = e := by
  unfold headOf
  rw [hlabel]
  rfl

theorem headOf_valid (hv : Valid e) (hclasses : ∀ t ∈ types, t.stackClass = t)
    (htypes : live = true → e.types = types) :
    Valid (headOf plan types e live index) ∧ (headOf plan types e live index).types = types := by
  by_cases hcanonical : plan.isLabel index = true ∨ live = false
  · have hstack : (headOf plan types e live index).stack = _ := headOf_stack hcanonical
    exact ⟨valid_of_stack hclasses hstack, types_of_stack hclasses hstack⟩
  · rw [not_or, Bool.not_eq_true, Bool.not_eq_false] at hcanonical
    obtain ⟨hlabel, rfl⟩ := hcanonical
    rw [headOf_next hlabel]
    exact ⟨hv, htypes rfl⟩

theorem headOf_before (hv : Valid e) : Before e (headOf plan types e live index) := by
  obtain ⟨e₁, hwrites, -, htemporaries, hbody⟩ := headOf_cases hv plan types live index
  refine hwrites.before.trans ⟨?_, fun t ht => ?_⟩
  · rw [hbody]
    exact prefix_append _ _
  · rw [htemporaries]
    exact ht

end

/-- All temporaries that the stack reads are listed. -/
def Covered (declared : List (Nat × CType)) (e : CEmitter) : Prop :=
  ∀ t, e.Reading t → t ∈ declared

section
variable {kind : CStmt → Prop} {declared : List (Nat × CType)} {e e' : CEmitter}

theorem Covered.of_writes (h : Covered declared e) (hw : Writes kind e e')
    (hd : ∀ t ∈ e'.temporaries, t ∈ declared) : Covered declared e' := fun t ht =>
  (hw.reading t ht).elim (h t) (hd t)

theorem Covered.of_stack (h : Covered declared e) (hs : e'.stack = e.stack) : Covered declared e' := by
  rintro t ⟨d, o, ho, hr⟩
  exact h t ⟨d, o, hs ▸ ho, hr⟩

theorem covered_of_types (h : e.types = []) : Covered declared e := by
  rintro t ⟨d, o, ho, -⟩
  have hget := getElem?_types e d
  rw [ho, h] at hget
  cases hget

end

end CEmitter

namespace CFunction

/-! ## States -/

/-- What holds before every instruction: the types on the stack are those of the plan, if control
comes from the instruction before. -/
structure Consistent (plan : CPlan) (size i : Nat) (state : CEmitter × Bool) : Prop where
  valid : CEmitter.Valid state.1
  live : state.2 = true → i < size → plan.entry? i = some state.1.types

section
variable {s : CScope} {plan : CPlan} {code : Array Instruction} {state : CEmitter × Bool}

/-- The head of an instruction, in a state. -/
def headIn (plan : CPlan) (state : CEmitter × Bool) (i : Nat) (types : List CType) : CEmitter :=
  CEmitter.headOf plan types state.1 state.2 i

theorem Consistent.head (h : Consistent plan code.size i state) (hp : plan.Sound s code)
    (hi : plan.entry? i = some types) :
    CEmitter.Valid (headIn plan state i types) ∧ (headIn plan state i types).types = types := by
  obtain ⟨instruction, hcode, -, hclasses, -⟩ := hp.entry i types hi
  refine headOf_valid h.valid hclasses fun hlive => ?_
  exact Option.some.inj ((h.live hlive (hp.lt hi)).symm.trans hi)

/-- **An instruction can be written** wherever control can come. -/
theorem Consistent.writes (h : Consistent plan code.size i state) (hp : plan.Sound s code)
    (hi : plan.entry? i = some types) (hcode : code[i]? = some instruction) : ∃ e',
      writeInstruction s plan code.size state (instruction, i) = .ok (e', !instruction.op.endsFlow) ∧
      CEmitter.Emits s i (i + 1 == code.size) (headIn plan state i types) instruction.op e' ∧
      (∀ j ∈ instruction.op.successors i code.size, plan.entry? j = some e'.types) ∧
      Consistent plan code.size (i + 1) (e', !instruction.op.endsFlow) := by
  obtain ⟨hvalid, htypes⟩ := h.head hp hi
  obtain ⟨instruction', hcode', -, -, types', htyping, hnext⟩ := hp.entry i types hi
  obtain rfl := Option.some.inj (hcode.symm.trans hcode')
  rw [← htypes] at htyping
  obtain ⟨e', hstep, hemits, htypes'⟩ := htyping.step hvalid (i + 1 == code.size)
  rw [← htypes'] at hnext
  refine ⟨e', ?_, hemits, hnext, (hemits.continues hvalid).valid, fun hlive hlt => ?_⟩
  · unfold writeInstruction
    simp only [hi]
    exact except_bind_ok.2 ⟨e', hstep, rfl⟩
  · refine hnext (i + 1) ?_
    rw [Op.successors, mem_append, if_pos (by simpa [hlt] using hlive)]
    exact .inr (mem_singleton.2 rfl)

theorem writeInstruction_none (s : CScope) (state : CEmitter × Bool) (instruction : Instruction)
    (size : Nat) (hi : plan.entry? i = none) :
    writeInstruction s plan size state (instruction, i) = .ok (state.1, false) := by
  unfold writeInstruction
  simp only [hi]
  rfl

theorem Consistent.next (h : Consistent plan code.size i state) (hp : plan.Sound s code)
    (hcode : code[i]? = some instruction) :
    ∃ state', writeInstruction s plan code.size state (instruction, i) = .ok state' ∧
      Consistent plan code.size (i + 1) state' := by
  cases hi : plan.entry? i with
  | none =>
    exact ⟨_, writeInstruction_none s state instruction code.size hi, h.valid, by simp⟩
  | some types =>
    obtain ⟨e', hwrite, -, -, hnext⟩ := h.writes hp hi hcode
    exact ⟨_, hwrite, hnext⟩

theorem consistent_start (hp : plan.Sound s code) : Consistent plan code.size 0 ({}, true) := by
  have hvalid : CEmitter.Valid {} := ⟨by simp, by simp⟩
  refine ⟨hvalid, fun _ hpos => ?_⟩
  rw [hp.start hpos]
  rfl

/-- **A method with a sound plan can be written.** -/
theorem ofPlan_ok (hp : plan.Sound s code) (index : Nat) : ∃ f, ofPlan s index plan code = .ok f := by
  have hfold : ∃ state, code.toList.zipIdx.foldlM (writeInstruction s plan code.size) ({}, true) =
      .ok state ∧ Consistent plan code.size code.toList.zipIdx.length state := by
    refine except_foldlM_exists (fun done state => Consistent plan code.size done.length state) ?_
      (consistent_start hp)
    intro done item rest state hsplit hc
    have hitem : code.toList.zipIdx[done.length]? = some item := by
      rw [hsplit, getElem?_append_right (Nat.le_refl _), Nat.sub_self]
      rfl
    rw [getElem?_zipIdx, Array.getElem?_toList, Nat.zero_add] at hitem
    obtain ⟨instruction, hcode, rfl⟩ := Option.map_eq_some_iff.1 hitem
    rw [length_append]
    exact hc.next hp hcode
  obtain ⟨state, hfold, -⟩ := hfold
  exact ⟨_, except_bind_ok.2 ⟨state, hfold, rfl⟩⟩

/-- The emitter before each instruction, and whether control comes from the instruction before. -/
structure States (s : CScope) (plan : CPlan) (code : Array Instruction)
    (state : Nat → CEmitter × Bool) : Prop where
  start : state 0 = ({}, true)
  step : ∀ (i : Nat) instruction, code[i]? = some instruction →
    writeInstruction s plan code.size (state i) (instruction, i) = .ok (state (i + 1))

end

section
variable {s : CScope} {plan : CPlan} {code : Array Instruction} {state : Nat → CEmitter × Bool}

theorem States.skips (h : States s plan code state) (hi : plan.entry? i = none)
    (hcode : code[i]? = some instruction) : state (i + 1) = ((state i).1, false) := by
  have hstep := h.step i _ hcode
  rw [writeInstruction_none s (state i) instruction code.size hi] at hstep
  exact (Except.ok.inj hstep).symm

/-- The head of an instruction. -/
def headAt (plan : CPlan) (state : Nat → CEmitter × Bool) (i : Nat) : CEmitter :=
  headIn plan (state i) i (plan.typesAt i)

/-- What is known about an instruction that can be reached. -/
structure Written (s : CScope) (plan : CPlan) (code : Array Instruction)
    (state : Nat → CEmitter × Bool) (i : Nat) (instruction : Instruction) (types : List CType) :
    Prop where
  before : CEmitter.Valid (state i).1
  head : CEmitter.Valid (headAt plan state i)
  types : (headAt plan state i).types = types
  emits : CEmitter.Emits s i (i + 1 == code.size) (headAt plan state i) instruction.op (state (i + 1)).1
  leaves : ∀ j ∈ instruction.op.successors i code.size,
    plan.entry? j = some (state (i + 1)).1.types
  live : (state (i + 1)).2 = !instruction.op.endsFlow

theorem Written.continues (h : Written s plan code state i instruction types) :
    CEmitter.Continues s i (headAt plan state i) instruction.op (state (i + 1)).1 :=
  h.emits.continues h.head

theorem Written.before_head (h : Written s plan code state i instruction types) :
    CEmitter.Before (state i).1 (headAt plan state i) := headOf_before h.before

/-- A label, or a statement that an instruction may write. -/
def Belongs (s : CScope) (plan : CPlan) (code : Array Instruction) (st : CStmt) : Prop :=
  (∃ j, st = .label j) ∨ ∃ (j : Nat) (instruction : Instruction) (types : List CType),
    code[j]? = some instruction ∧ plan.entry? j = some types ∧ s.Permits j instruction.op st

variable (h : States s plan code state) (hp : plan.Sound s code)
include h hp

theorem States.consistent : ∀ {i : Nat}, i ≤ code.size → Consistent plan code.size i (state i)
  | 0, _ => h.start ▸ consistent_start hp
  | i + 1, hi => by
    have hcode := Array.getElem?_eq_getElem hi
    obtain ⟨state', hstep, hc⟩ := (States.consistent (Nat.le_of_succ_le hi)).next hp hcode
    rw [h.step i _ hcode, Except.ok.injEq] at hstep
    exact hstep ▸ hc

theorem States.written (hi : plan.entry? i = some types) (hcode : code[i]? = some instruction) :
    Written s plan code state i instruction types := by
  have hc := h.consistent hp (Nat.le_of_lt (hp.lt hi))
  obtain ⟨hvalid, htypes⟩ := hc.head hp hi
  obtain ⟨e', hwrite, hemits, hleaves, -⟩ := hc.writes hp hi hcode
  rw [h.step i instruction hcode, Except.ok.injEq] at hwrite
  have hhead : headAt plan state i = headIn plan (state i) i types := by rw [headAt, CPlan.typesAt_eq hi]
  exact ⟨hc.valid, hhead ▸ hvalid, hhead ▸ htypes, by rw [hhead, hwrite]; exact hemits,
    by rw [hwrite]; exact hleaves, by rw [hwrite]⟩

theorem States.before {i j : Nat} (hij : i ≤ j) (hj : j ≤ code.size) :
    CEmitter.Before (state i).1 (state j).1 := by
  induction hij with
  | refl => exact CEmitter.Before.refl _
  | @step j hij ih =>
    refine (ih (Nat.le_of_succ_le hj)).trans ?_
    have hcode := Array.getElem?_eq_getElem hj
    cases hi : plan.entry? j with
    | none =>
      rw [h.skips hi hcode]
      exact CEmitter.Before.refl _
    | some types =>
      have hw := h.written hp hi hcode
      exact hw.before_head.trans hw.continues.writes.before

theorem States.label (hi : plan.entry? i = some types) (hlabel : plan.isLabel i = true) :
    .label i ∈ (state code.size).1.body.toList := by
  obtain ⟨instruction, hcode, -⟩ := hp.entry i types hi
  have hw := h.written hp hi hcode
  obtain ⟨e₁, -, -, -, hbody⟩ :=
    headOf_cases hw.before plan (plan.typesAt i) (state i).2 i
  have hhead : .label i ∈ (headAt plan state i).body.toList := by
    rw [show (headAt plan state i).body.toList = _ from hbody, if_pos hlabel]
    exact mem_append_right _ (mem_singleton.2 rfl)
  exact (h.before hp (hp.lt hi) (Nat.le_refl _)).body.subset
    (hw.continues.writes.before.body.subset hhead)

/-! ## Temporaries are declared -/

variable {declared : List (Nat × CType)}
  (hd : ∀ t ∈ (state code.size).1.temporaries, t ∈ declared)
include hd

theorem States.declares (hi : i ≤ code.size) : ∀ t ∈ (state i).1.temporaries, t ∈ declared :=
  fun t ht => hd t ((h.before hp hi (Nat.le_refl _)).temporaries t ht)

/-- **What is read at the head of an instruction is declared**, by induction on how control comes
there. -/
theorem States.covers_head (hi : Reaches code i) :
    CEmitter.Covered declared (headAt plan state i) := by
  induction hi with
  | start inside =>
    have hentry := hp.start inside
    obtain ⟨instruction, hcode, -⟩ := hp.entry 0 [] hentry
    exact covered_of_types (h.written hp hentry hcode).types
  | @step i j instruction before there next ih =>
    obtain ⟨types, hi⟩ := hp.entry_of_reaches before
    have hw := h.written hp hi there
    have hafter : CEmitter.Covered declared (state (i + 1)).1 :=
      ih.of_writes hw.continues.writes (h.declares hp hd (hp.lt hi))
    obtain ⟨types', hj⟩ := hp.entry_of_reaches (.step before there next)
    obtain ⟨instruction', hcode', -⟩ := hp.entry j types' hj
    have hw' := h.written hp hj hcode'
    have hheadTemporaries : ∀ t ∈ (headAt plan state j).temporaries, t ∈ declared := fun t ht =>
      h.declares hp hd (hp.lt hj) t (hw'.continues.writes.temporaries t ht)
    have hstack : plan.isLabel j = true →
        (headAt plan state j).stack = canonicalStack types' := by
      intro hlabel
      rw [headAt, CPlan.typesAt_eq hj]
      exact headOf_stack (.inl hlabel)
    have htypes : (state (i + 1)).1.types = types' :=
      Option.some.inj ((hw.leaves j next).symm.trans hj)
    rw [Op.successors, mem_append] at next
    rcases next with hmem | hmem
    · have hlabel := hp.label i j instruction there hmem (hp.lt hj)
      refine hafter.of_stack ?_
      rw [hstack hlabel, hw.emits.stack_of_target hw.head hmem, htypes]
    · split at hmem
      · rename_i hflows
        obtain rfl := mem_singleton.1 hmem
        have hlive : (state (i + 1)).2 = true := by
          rw [hw.live]
          exact (Bool.and_eq_true _ _ ▸ hflows).1
        cases hlabel : plan.isLabel (i + 1) with
        | true =>
          have hsettling := settling_materializeAll hw'.before
          refine CEmitter.Covered.of_stack (e := (state (i + 1)).1.materializeAll) ?_ ?_
          · refine hafter.of_writes hsettling.writes fun t ht => hheadTemporaries t ?_
            rw [headAt, headIn, headOf, hlabel, hlive]
            exact ht
          · rw [hstack hlabel, stack_materializeAll hw'.before, htypes]
        | false =>
          rw [headAt, headIn, hlive, headOf_next hlabel]
          exact hafter
      · cases hmem

theorem States.covers_live (hi : i ≤ code.size) (hlive : (state i).2 = true) :
    CEmitter.Covered declared (state i).1 := by
  cases i with
  | zero =>
    rw [h.start]
    exact covered_of_types rfl
  | succ i =>
    have hcode := Array.getElem?_eq_getElem hi
    cases hentry : plan.entry? i with
    | none =>
      rw [h.skips hentry hcode] at hlive
      cases hlive
    | some types =>
      exact (h.covers_head hp hd (hp.reaches i types hentry)).of_writes
        (h.written hp hentry hcode).continues.writes (h.declares hp hd hi)

/-- **The statements of the text**, by induction on the instructions that are written. -/
theorem States.statements : ∀ {i : Nat}, i ≤ code.size →
    ∀ st ∈ (state i).1.body.toList, Belongs s plan code st ∧ ∀ t ∈ st.temporaries, t ∈ declared
  | 0, _, st, hst => by
    rw [h.start] at hst
    simp at hst
  | i + 1, hi, st, hst => by
    have ih := States.statements (Nat.le_of_succ_le hi)
    have hcode := Array.getElem?_eq_getElem hi
    cases hentry : plan.entry? i with
    | none =>
      rw [h.skips hentry hcode] at hst
      exact ih st hst
    | some types =>
      have hw := h.written hp hentry hcode
      have hafter := h.declares hp hd hi
      have hbelongs : ∀ {st}, s.Permits i code[i].op st → Belongs s plan code st := fun hst =>
        .inr ⟨i, _, types, hcode, hentry, hst⟩
      obtain ⟨new, hnew, hkind⟩ := hw.continues.writes.body
      rw [hnew, mem_append] at hst
      rcases hst with hst | hst
      · -- in front of the instruction: the text before, the moves to the label, and the label
        obtain ⟨e₁, hwrites, hlive, htemporaries, hbody⟩ :=
          headOf_cases hw.before plan (plan.typesAt i) (state i).2 i
        have hst : st ∈ e₁.body.toList ++ if plan.isLabel i then [.label i] else [] := hbody ▸ hst
        rcases mem_append.1 hst with hst | hst
        · rcases hlive with hlive | rfl
          · obtain ⟨moves, hmoves, hplain⟩ := hwrites.body
            rw [hmoves, mem_append] at hst
            rcases hst with hst | hst
            · exact ih st hst
            · refine ⟨hbelongs ((hplain st hst).1.permits s i _), fun t ht => ?_⟩
              rcases (hplain st hst).2 t ht with hr | hr
              · exact h.covers_live hp hd (Nat.le_of_succ_le hi) hlive t hr
              · exact hafter t (hw.continues.writes.temporaries t (htemporaries ▸ hr))
          · exact ih st hst
        · split at hst
          · cases mem_singleton.1 hst
            exact ⟨.inl ⟨i, rfl⟩, fun t ht => absurd ht not_mem_nil⟩
          · cases hst
      · refine ⟨hbelongs (hkind st hst).1, fun t ht => ?_⟩
        rcases (hkind st hst).2 t ht with hr | hr
        · exact h.covers_head hp hd (hp.reaches i types hentry) t hr
        · exact hafter t hr

end

/-! ## Whole functions -/

/-- Every target in the text has a label, and every temporary is declared. -/
structure Closed (f : CFunction) : Prop where
  targets : ∀ st ∈ f.body, ∀ t ∈ st.targets, .label t ∈ f.body
  temporaries : ∀ st ∈ f.body, ∀ t ∈ st.temporaries, t ∈ f.temporaries

section
variable {s : CScope} {plan : CPlan} {code : Array Instruction} {index : Nat} {f : CFunction}

theorem states_ofPlan (h : ofPlan s index plan code = .ok f) : ∃ state, States s plan code state ∧
    f.index = index ∧ f.body = (state code.size).1.body.toList ∧
    ∀ t ∈ (state code.size).1.temporaries, t ∈ f.temporaries := by
  obtain ⟨⟨last, live⟩, hfold, hf⟩ := except_bind_ok.1 h
  cases hf
  obtain ⟨state, hstart, hend, hstep⟩ := except_foldlM_states hfold
  rw [length_zipIdx, Array.length_toList] at hend
  refine ⟨state, ⟨hstart, fun i instruction hcode => hstep i (instruction, i) ?_⟩, rfl,
    by rw [hend], fun t ht => LayoutTable.mem_sortBy.2 (by rw [hend] at ht; exact ht)⟩
  rw [getElem?_zipIdx, Array.getElem?_toList, hcode]
  simp

/-- **A function that was written after a sound plan is closed**, and calls what its instructions
call. -/
theorem closed_ofPlan (hp : plan.Sound s code) (h : ofPlan s index plan code = .ok f) :
    f.index = index ∧ f.Closed ∧ ∀ st ∈ f.body, ∀ k, st.callee? = some k → ∃ (i : Nat) (pops : Nat)
      (storage : Option Storage), s.method.sites[i]? = some (.call (.user k) pops storage) := by
  obtain ⟨state, hstates, hindex, hbody, hdeclared⟩ := states_ofPlan h
  have hstatements := hstates.statements hp hdeclared (Nat.le_refl _)
  rw [← hbody] at hstatements
  refine ⟨hindex, ⟨fun st hst t ht => ?_, fun st hst => (hstatements st hst).2⟩, fun st hst k hk => ?_⟩
  · obtain ⟨j, rfl⟩ | ⟨j, instruction, types, hcode, hj, hpermits⟩ := (hstatements st hst).1
    · cases ht
    · have htarget := hpermits.targets t ht
      obtain ⟨instruction', hcode', hin, -, types', -, hnext⟩ := hp.entry j types hj
      obtain rfl := Option.some.inj (hcode.symm.trans hcode')
      have hentry := hnext t (mem_append_left _ htarget)
      rw [hbody]
      exact hstates.label hp hentry (hp.label j t instruction hcode htarget (hin t htarget))
  · obtain ⟨j, rfl⟩ | ⟨j, instruction, types, -, -, hpermits⟩ := (hstatements st hst).1
    · cases hk
    · obtain ⟨pops, storage, hsite⟩ := (hpermits.callee k hk).2
      exact ⟨j, pops, storage, hsite⟩

end

end CFunction

end DeviceCode
