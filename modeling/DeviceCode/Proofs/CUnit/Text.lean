import DeviceCode.Proofs.CUnit.Execution
import DeviceCode.Proofs.CUnit.Function

/-!
# Where statements stand

`CFunction.after f e`: what comes in the text of the function behind the statements of an emitter.
`CFunction.Text` ties a function to the states that it was written in. Main statements: control that
falls through comes to the head of the next instruction (`Text.falls`), and a jump comes to the head
behind its label (`Text.behindLabel`), since no other instruction has written that label.
-/

namespace DeviceCode

open CEmitter

open List

theorem CEmitter.Writes.label_mem {kind : CStmt → Prop} {e e' : CEmitter} (h : Writes kind e e')
    (hkind : ∀ st, kind st → ∀ i, st ≠ .label i) {j : Nat} (hj : .label j ∈ e'.body.toList) :
    .label j ∈ e.body.toList := by
  obtain ⟨new, hnew, hall⟩ := h.body
  rw [hnew, mem_append] at hj
  exact hj.resolve_right fun hj => hkind _ (hall _ hj).1 j rfl

namespace CFunction

/-- What the emitter holds is a part of the function. -/
structure Within (f : CFunction) (e : CEmitter) : Prop where
  body : e.body.toList <+: f.body
  temporaries : ∀ t ∈ e.temporaries, t ∈ f.temporaries

/-- The statements of the function behind those of the emitter. -/
def after (f : CFunction) (e : CEmitter) : List CStmt := f.body.drop e.body.size

section
variable {f : CFunction} {e e' : CEmitter} {st : CStmt}

theorem Within.of_before (h : Within f e') (hb : CEmitter.Before e e') : Within f e :=
  ⟨hb.body.trans h.body, fun t ht => h.temporaries t (hb.temporaries t ht)⟩

theorem Within.of_write (h : Within f (e.write st)) : Within f e := by
  refine ⟨List.IsPrefix.trans ?_ h.body, h.temporaries⟩
  rw [write, Array.toList_push]
  exact prefix_append _ _

theorem after_append {rest : List CStmt} (h : e.body.toList ++ rest = f.body) : f.after e = rest := by
  rw [after, ← h]
  exact drop_left' Array.length_toList

theorem after_eq {new : List CStmt} (h : Within f e') (hnew : e'.body.toList = e.body.toList ++ new) :
    f.after e = new ++ f.after e' := by
  obtain ⟨rest, hrest⟩ := h.body
  rw [after_append hrest]
  refine after_append ?_
  rw [← append_assoc, ← hnew, hrest]

theorem after_write (h : Within f (e.write st)) : f.after e = st :: f.after (e.write st) := by
  have hbody : (e.write st).body.toList = e.body.toList ++ [st] := by simp [write]
  exact after_eq h hbody

theorem behindLabel?_eq {index : Nat} (rest : List CStmt) : ∀ {before : List CStmt},
    .label index ∉ before →
    behindLabel?.go index (before ++ .label index :: rest) = some rest
  | [], _ => by simp [behindLabel?.go]
  | st :: before, h => by
    have hrest := behindLabel?_eq rest (not_mem_of_not_mem_cons h)
    unfold behindLabel?.go
    split
    · contradiction
    · rename_i i rest' heq
      obtain ⟨rfl, rfl⟩ := cons.inj heq
      rw [if_neg fun hi => h (by rw [hi]; exact mem_cons_self)]
      exact hrest
    · rename_i heq
      obtain ⟨rfl, rfl⟩ := cons.inj heq
      exact hrest

end

/-! ## Labels -/

section
variable {s : CScope} {plan : CPlan} {code : Array Instruction} {state : Nat → CEmitter × Bool}
  {i : Nat} {types : List CType} {instruction : Instruction} {f : CFunction}

/-- **The labels in the text are those of the instructions before.** -/
theorem States.label_lt (h : States s plan code state) (hp : plan.Sound s code) :
    ∀ {i : Nat}, i ≤ code.size → ∀ j, .label j ∈ (state i).1.body.toList → j < i
  | 0, _, j, hj => by
    rw [h.start] at hj
    simp at hj
  | i + 1, hi, j, hj => by
    have ih := h.label_lt hp (Nat.le_of_succ_le hi) j
    have hcode := Array.getElem?_eq_getElem hi
    cases hentry : plan.entry? i with
    | none =>
      rw [h.skips hentry hcode] at hj
      exact Nat.lt_succ_of_lt (ih hj)
    | some types =>
      have hw := h.written hp hentry hcode
      have hj := hw.continues.writes.label_mem (fun _ hst => hst.label) hj
      obtain ⟨e₁, hwrites, -, -, hbody⟩ :=
        headOf_cases hw.before plan (plan.typesAt i) (state i).2 i
      rw [headAt, headIn, hbody, mem_append] at hj
      rcases hj with hj | hj
      · exact Nat.lt_succ_of_lt (ih (hwrites.label_mem (fun _ hst => hst.label) hj))
      · split at hj
        · cases mem_singleton.1 hj
          exact Nat.lt_succ_self i
        · cases hj

/-- The function has the text of the last state. -/
structure Text (s : CScope) (plan : CPlan) (code : Array Instruction) (state : Nat → CEmitter × Bool)
    (f : CFunction) : Prop extends States s plan code state where
  sound : plan.Sound s code
  body : f.body = (state code.size).1.body.toList
  temporaries : ∀ t ∈ (state code.size).1.temporaries, t ∈ f.temporaries

theorem States.step_head (h : States s plan code state) (hi : plan.entry? i = some types)
    (hcode : code[i]? = some instruction) :
    (headAt plan state i).step s i instruction.op (i + 1 == code.size) = .ok (state (i + 1)).1 := by
  have hwrite := h.step i instruction hcode
  unfold writeInstruction at hwrite
  simp only [hi] at hwrite
  obtain ⟨e', hstep, hstate⟩ := except_bind_ok.1 hwrite
  rw [headAt, CPlan.typesAt_eq hi, ← except_pure_ok.1 hstate]
  exact hstep

theorem Text.within (h : Text s plan code state f) (hi : i ≤ code.size) : f.Within (state i).1 := by
  have hbefore := h.before h.sound hi (Nat.le_refl _)
  exact ⟨h.body ▸ hbefore.body, fun t ht => h.temporaries t (hbefore.temporaries t ht)⟩

theorem Text.written_at (h : Text s plan code state f) (hi : plan.entry? i = some types) :
    ∃ instruction, code[i]? = some instruction ∧ Written s plan code state i instruction types := by
  obtain ⟨instruction, hcode, -⟩ := h.sound.entry i types hi
  exact ⟨instruction, hcode, h.written h.sound hi hcode⟩

theorem Text.within_head (h : Text s plan code state f) (hi : plan.entry? i = some types) :
    f.Within (headAt plan state i) := by
  obtain ⟨instruction, -, hw⟩ := h.written_at hi
  exact (h.within (h.sound.lt hi)).of_before hw.continues.writes.before

/-- **A jump to a label comes to the head behind it.** -/
theorem Text.behindLabel (h : Text s plan code state f) (hi : plan.entry? i = some types)
    (hlabel : plan.isLabel i = true) : f.behindLabel? i = some (f.after (headAt plan state i)) := by
  obtain ⟨instruction, -, hw⟩ := h.written_at hi
  obtain ⟨e₁, hwrites, -, -, hbody⟩ :=
    headOf_cases hw.before plan (plan.typesAt i) (state i).2 i
  rw [if_pos hlabel] at hbody
  obtain ⟨rest, hrest⟩ := (h.within_head hi).body
  rw [after_append hrest, behindLabel?, ← hrest, headAt, headIn, hbody, append_assoc]
  refine behindLabel?_eq rest fun hmem => Nat.lt_irrefl i ?_
  exact h.label_lt h.sound (Nat.le_of_lt (h.sound.lt hi)) i
    (hwrites.label_mem (fun _ hst => hst.label) hmem)

theorem Text.stack_of_label (hi : plan.entry? i = some types) (hlabel : plan.isLabel i = true) :
    (headAt plan state i).stack = CEmitter.canonicalStack types := by
  rw [headAt, CPlan.typesAt_eq hi]
  exact headOf_stack (.inl hlabel)

/-- **Control that falls through** comes to the head of the next instruction: nothing is written in
between, or the stack is settled and the label follows. -/
theorem Text.falls (hi : plan.entry? i = some (state i).1.types) (hlive : (state i).2 = true)
    (hv : CEmitter.Valid (state i).1) :
    plan.isLabel i = false ∧ headAt plan state i = (state i).1 ∨
      plan.isLabel i = true ∧ headAt plan state i = (state i).1.materializeAll.write (.label i) := by
  rw [headAt, headIn, CPlan.typesAt_eq hi, hlive]
  cases hlabel : plan.isLabel i with
  | false => exact .inl ⟨rfl, headOf_next hlabel _⟩
  | true =>
    refine .inr ⟨rfl, ?_⟩
    unfold headOf
    rw [if_pos hlabel, ← stack_materializeAll hv]
    rfl

theorem text_ofPlan (hp : plan.Sound s code) {index : Nat} (h : ofPlan s index plan code = .ok f) :
    f.ret = returnType s.method ∧ f.locals = localDeclarations s.method ∧
      ∃ state, Text s plan code state f := by
  obtain ⟨state, hstates, -, hbody, htemporaries⟩ := states_ofPlan h
  obtain ⟨last, -, hf⟩ := except_bind_ok.1 h
  cases hf
  exact ⟨rfl, rfl, state, hstates, hp, hbody, htemporaries⟩

end

end CFunction

end DeviceCode
