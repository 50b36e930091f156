import DeviceCode.Proofs.CUnit.Text
import Mathlib.Tactic.Choose

/-!
# Operands that wait

While a method is written in C, operands wait on the symbolic stack, and what an instruction has taken
off waits until its statement is written. A `Writing` is a statement with the operands that are there
when it is written. `Course` says how an instruction is written: it takes operands, others are spilled
into their temporaries (`Spills`), and what was taken is written (`Ends`). A `Pass` is the whole text of
a function in this way.

Main statement: `CFunction.Text.pass`, no statement of a function assigns a variable that an operand
that waits reads. A taken operand reads a temporary of the stack only if the operand of that depth is
settled (`Safe.not_mem_reads`), and settled operands are never spilled.
-/

namespace DeviceCode

open CEmitter

open List

variable {w : Writing} {ws text : List Writing}

namespace CEmitter

/-- A statement as it is written. -/
structure Writing where
  statement : CStmt
  /-- The variables that the statement assigns. -/
  assigns : CVar → Prop := fun _ => False
  /-- The operands on the stack, from the bottom up. -/
  stack : Array COperand
  /-- The depths of the operands that the statement puts into their temporaries. -/
  moved : List Nat := []
  /-- The operands that the instruction has taken off the stack. -/
  taken : List COperand := []
  /-- What was taken is written later. -/
  waiting : Bool := false

/-- No operand that waits reads a variable that the statement assigns, but one that the statement itself
puts into its temporary. -/
def Writing.Unclobbered (w : Writing) : Prop :=
  ∀ v, w.assigns v →
    (∀ (d : Nat) o, w.stack[d]? = some o → d ∉ w.moved → v ∉ o.reads) ∧
    (w.waiting = true → ∀ o ∈ w.taken, v ∉ o.reads)

/-- The statement makes the moves. -/
inductive Makes : List CMove → CStmt → Prop
  | one (m : CMove) : Makes [m] (.assign (.temporary m.depth m.type) m.value)
  | all (moves : List CMove) : Makes moves (.moveAll moves)

/-- Operands are put into their temporaries while others that were taken off wait. -/
def Writing.spill (taken : List COperand) (stack : Array COperand) (moves : List CMove) (st : CStmt) :
    Writing where
  statement := st
  assigns v := ∃ m ∈ moves, v = .temporary m.depth m.type
  stack := stack
  moved := moves.map (·.depth)
  taken := taken
  waiting := true

/-- Operands of the stack are put into their temporaries, statement by statement. -/
inductive Spills (taken : List COperand) (stack : Array COperand) :
    List Writing → Array COperand → Prop
  | none : Spills taken stack [] stack
  | step {ws : List Writing} {before after : Array COperand} {moves : List CMove} {st : CStmt}
    (spilt : Spills taken stack ws before) (text : Makes moves st)
    (nodup : (moves.map (·.depth)).Nodup)
    (there : ∀ m ∈ moves, ∃ o, before[m.depth]? = some o ∧ m = ⟨m.depth, o.type, o.expr⟩)
    (moved : ∀ d : Nat, after[d]? = if d ∈ moves.map (·.depth)
      then before[d]?.map fun o => COperand.temporary d o.type else before[d]?) :
    Spills taken stack (ws ++ [.spill taken before moves st]) after

/-- How the writing of an instruction ends when it has taken its operands: with the statement that has
them, or with an operand on the stack. A call assigns every static field. -/
inductive Ends (s : CScope) (index : Nat) (last : Bool) (stack : Array COperand) :
    Op → List COperand → List Writing → Array COperand → Prop
  | nop : Ends s index last stack .nop [] [] stack
  | load {op : Op} {place : CPlace} {type : CType} {v : CVar}
    (access : Accesses s index .load op place type v) :
    Ends s index last stack op [] [] (stack.push (COperand.ofPlace place type v))
  | literal {op : Op} {o : COperand} (literal : Literal op o) :
    Ends s index last stack op [] [] (stack.push o)
  | dup {o : COperand} (top : stack.back? = some o) :
    Ends s index last stack .dup [] [] (stack.push o)
  | pop (o : COperand) : Ends s index last stack .pop [o] [] stack
  | store {op : Op} {place : CPlace} {type : CType} {v : CVar}
    (access : Accesses s index .store op place type v) (o : COperand) :
    Ends s index last stack op [o]
      [{ statement := .assign place o.expr, assigns := (· = v), stack, taken := [o] }] stack
  | compute {op : Op} {parts : List COperand} {o : COperand}
    (computes : Computes s index op parts o) :
    Ends s index last stack op parts [] (stack.push o)
  | branch {op : Op} {parts : List COperand} {st : CStmt} (branches : Branches op parts st) :
    Ends s index last stack op parts [{ statement := st, stack, taken := parts }] stack
  | call {op : Op} {k : Nat} {target : CompiledMethod} {slots : List (UInt16 × CType)}
    {parts : List COperand} (calls : Calls s index op k target none slots)
    (arity : parts.length = slots.length) :
    Ends s index last stack op parts
      [{ statement := .call none k (max target.args.size 1) (filled slots parts)
         assigns := fun v => ∃ key, v = .static key, stack, taken := parts }] stack
  | callResult {op : Op} {k : Nat} {target : CompiledMethod} {type : CType}
    {slots : List (UInt16 × CType)} {parts : List COperand}
    (calls : Calls s index op k target (some type) slots) (arity : parts.length = slots.length) :
    Ends s index last stack op parts
      [{ statement := .call (some (.temporary stack.size type.stackClass)) k
           (max target.args.size 1) (filled slots parts)
         assigns := fun v => v = .temporary stack.size type.stackClass ∨ ∃ key, v = .static key
         stack, taken := parts }]
      (stack.push (COperand.temporary stack.size type.stackClass))
  | returnNone (void : s.method.ret = none) :
    Ends s index last stack .ret [] (if last then [] else [{ statement := .ret none, stack }]) stack
  | returnValue (result : s.ReturnsValue) (o : COperand) :
    Ends s index last stack .ret [o]
      [{ statement := .ret (some o.expr), stack, taken := [o] }] stack

/-- How an instruction is written: it takes the operands from the depth `kept` on, those below are
spilled as needed, and what was taken is written. -/
def Course (s : CScope) (index : Nat) (last : Bool) (op : Op) (stack : Array COperand) (kept : Nat)
    (ws : List Writing) (stack' : Array COperand) : Prop :=
  ∃ spilt text between, kept ≤ stack.size ∧
    Spills (stack.toList.drop kept) (stack.take kept) spilt between ∧
    Ends s index last between op (stack.toList.drop kept) text stack' ∧ ws = spilt ++ text

/-! ## Spills -/

/-- The emitter wrote these statements, and none clobbers an operand. -/
structure Wrote (e e' : CEmitter) (ws : List Writing) : Prop where
  body : e'.body.toList = e.body.toList ++ ws.map (·.statement)
  unclobbered : ∀ w ∈ ws, w.Unclobbered

section
variable {e e' e₁ e₂ : CEmitter} {taken : List COperand} {ws' : List Writing}

theorem Wrote.none (e : CEmitter) : Wrote e e [] := ⟨by simp, by simp⟩

theorem Wrote.append (h : Wrote e e₁ ws) (h' : Wrote e₁ e₂ ws') : Wrote e e₂ (ws ++ ws') := by
  refine ⟨?_, fun w hw => ?_⟩
  · rw [h'.body, h.body, map_append, append_assoc]
  · rcases mem_append.1 hw with hw | hw
    · exact h.unclobbered w hw
    · exact h'.unclobbered w hw

theorem wrote_one (hbody : e'.body = e.body.push w.statement) (hw : w.Unclobbered) :
    Wrote e e' [w] :=
  ⟨by simp [hbody], by simpa using hw⟩

theorem Wrote.of_body (h : Wrote e e₁ ws) (hbody : e'.body = e₁.body) : Wrote e e' ws :=
  ⟨hbody ▸ h.body, h.unclobbered⟩

/-- An operand that may stand on the stack reads no temporary of an operand that is not settled. -/
theorem Safe.not_mem_reads {o : COperand} (h : e.Safe e.stack.size o) {d : Nat}
    (hd : d < e.stack.size) (hn : ¬ e.Settled d) (t : CType) : .temporary d t ∉ o.reads := by
  intro hr
  obtain hle | hs := h d t hr
  · omega
  · exact hn ⟨t, hs⟩

/-- Operands of the stack are put into their temporaries, which the emitter declares. -/
structure Spilling (taken : List COperand) (e e' : CEmitter) (ws : List Writing) : Prop where
  spills : Spills taken e.stack ws e'.stack
  wrote : Wrote e e' ws
  declared : ∀ w ∈ ws, ∀ d t, w.assigns (.temporary d t) → (d, t) ∈ e'.temporaries

theorem unclobbered_spill {stack : Array COperand} {moves : List CMove} {st : CStmt}
    (hstack : ∀ m ∈ moves, ∀ (d : Nat) o, stack[d]? = some o → d ∉ moves.map (·.depth) →
      .temporary m.depth m.type ∉ o.reads)
    (htaken : ∀ m ∈ moves, ∀ o ∈ taken, .temporary m.depth m.type ∉ o.reads) :
    (Writing.spill taken stack moves st).Unclobbered := by
  rintro v ⟨m, hm, rfl⟩
  exact ⟨hstack m hm, fun _ => htaken m hm⟩

/-- **Putting operands into their temporaries one after the other** clobbers no operand. -/
theorem Settles.spills (h : Settles e e') (hv : Valid e)
    (htaken : ∀ o ∈ taken, e.Safe e.stack.size o) : ∃ ws, Spilling taken e e' ws := by
  induction h with
  | refl => exact ⟨[], .none, .none e, by simp⟩
  | @step e' d o before there unsettled free ih =>
    obtain ⟨ws, hspills, hwrote, hdeclared⟩ := ih
    have hsettling := before.settling hv
    have hlt := (Array.getElem?_eq_some_iff.1 there).1
    have hassign := assignTemporary_eq there
    refine ⟨_, .step hspills (.one ⟨d, o.type, o.expr⟩) (by simp) (fun m hm => ?_) (fun d' => ?_),
      hwrote.append ⟨?_, fun w hw => ?_⟩, fun w hw d' t ht => ?_⟩
    · obtain rfl := mem_singleton.1 hm
      exact ⟨o, there, rfl⟩
    · rw [getElem?_assignTemporary there]
      by_cases heq : d' = d
      · rw [if_pos heq, if_pos (by simp [heq]), heq, there]
        rfl
      · rw [if_neg heq, if_neg (by simp [heq])]
    · rw [hassign]
      simp [write, Writing.spill]
    · obtain rfl := mem_singleton.1 hw
      refine unclobbered_spill (fun m hm d' o' ho' hd' => ?_) fun m hm a ha => ?_
      · obtain rfl := mem_singleton.1 hm
        exact free d' o' (by simpa using hd') ho'
      · obtain rfl := mem_singleton.1 hm
        have hsafe : e'.Safe e'.stack.size a := hsettling.size ▸ hsettling.safe (htaken a ha)
        exact hsafe.not_mem_reads hlt unsettled _
    · rcases mem_append.1 hw with hw | hw
      · exact (writes_assignTemporary hsettling.valid there).temporaries _ (hdeclared w hw d' t ht)
      · obtain rfl := mem_singleton.1 hw
        obtain ⟨m, hm, heq⟩ := ht
        obtain rfl := mem_singleton.1 hm
        cases heq
        rw [hassign]
        exact mem_useTemporary e' d o.type

/-- **Settling the whole stack** clobbers no operand. -/
theorem spills_materializeAll (hv : Valid e) (htaken : ∀ o ∈ taken, e.Safe e.stack.size o) :
    ∃ ws, Spilling taken e e.materializeAll ws := by
  obtain ⟨hall, hsettles | hmoved⟩ := materializeAll_cases hv
  · exact hsettles.spills hv htaken
  -- the operands that the block leaves are settled, and read their own temporaries only
  have hdepths := map_depth_moveBlock hv
  have hleft : ∀ {d : Nat} {o : COperand}, e.stack[d]? = some o → d ∉ e.moveBlock.map (·.depth) →
      e.Settled d := by
    intro d o ho hd
    rw [hdepths, mem_unsettled hv] at hd
    by_contra hn
    exact hd ⟨(Array.getElem?_eq_some_iff.1 ho).1, hn⟩
  refine ⟨_, .step .none (.all e.moveBlock) ?_ (fun m hm => ?_) (fun d => ?_), ⟨?_, fun w hw => ?_⟩,
    fun w hw d t ht => ?_⟩
  · rw [hdepths]
    exact nodup_unsettled e
  · obtain ⟨o, ho, -, hm⟩ := (mem_moveBlock hv).1 hm
    exact ⟨o, ho, hm⟩
  · cases ho : e.stack[d]? with
    | none =>
      rw [Array.getElem?_eq_none (hmoved.size.symm ▸ Array.getElem?_eq_none_iff.1 ho)]
      split <;> rfl
    | some o =>
      rw [hmoved.settled_all hv ho]
      by_cases hd : d ∈ e.moveBlock.map (·.depth)
      · rw [if_pos hd]
        rfl
      · rw [if_neg hd, ← hv.settled_type ho (hleft ho hd)]
  · rw [hmoved.body]
    simp [write, Writing.spill]
  · obtain rfl := mem_singleton.1 hw
    refine unclobbered_spill (fun m hm d o ho hd hr => ?_) fun m hm a ha => ?_
    · obtain ⟨t, ht⟩ := (hleft ho hd).reads ho hr
      cases ht
      exact hd (mem_map.2 ⟨m, hm, rfl⟩)
    · obtain ⟨o, ho, hn, -⟩ := (mem_moveBlock hv).1 hm
      exact (htaken a ha).not_mem_reads (Array.getElem?_eq_some_iff.1 ho).1 hn _
  · obtain rfl := mem_singleton.1 hw
    obtain ⟨m, hm, heq⟩ := ht
    cases heq
    exact hmoved.declared m hm

end

/-! ## Instructions -/

section
variable {s : CScope} {index n : Nat} {last : Bool} {op : Op} {e e' e₁ : CEmitter}

theorem Valid.safe_taken (hv : Valid e) (hn : n ≤ e.stack.size) :
    ∀ o ∈ e.stack.toList.drop n, (e.lower n).Safe (e.lower n).stack.size o := by
  intro o ho
  obtain ⟨d, hd, ho⟩ := exists_of_mem_drop ho
  rw [size_lower e hn]
  exact hv.safe_lower ho hd (Nat.le_refl n)

theorem course_of_spills (hn : n ≤ e.stack.size)
    (hspills : Spills (e.stack.toList.drop n) (e.lower n).stack ws e₁.stack)
    (hwrote : Wrote (e.lower n) e₁ ws)
    (hends : Ends s index last e₁.stack op (e.stack.toList.drop n) text e'.stack)
    (htext : Wrote e₁ e' text) :
    ∃ kept ws, Course s index last op e.stack kept ws e'.stack ∧ Wrote e e' ws := by
  have hwrote : Wrote e e₁ ws := ⟨hwrote.body, hwrote.unclobbered⟩
  exact ⟨n, ws ++ text, ⟨ws, text, e₁.stack, hn, hspills, hends, rfl⟩, hwrote.append htext⟩

theorem course_of_ends (hn : n ≤ e.stack.size)
    (hends : Ends s index last (e.lower n).stack op (e.stack.toList.drop n) text e'.stack)
    (htext : Wrote (e.lower n) e' text) :
    ∃ kept ws, Course s index last op e.stack kept ws e'.stack ∧ Wrote e e' ws :=
  course_of_spills hn .none (.none _) hends htext

theorem course_of_none (hspills : Spills [] e.stack ws e₁.stack) (hwrote : Wrote e e₁ ws)
    (hends : Ends s index last e₁.stack op [] text e'.stack) (htext : Wrote e₁ e' text) :
    ∃ kept ws, Course s index last op e.stack kept ws e'.stack ∧ Wrote e e' ws := by
  have hdrop : e.stack.toList.drop e.stack.size = [] := drop_eq_nil_of_le (by simp)
  rw [← hdrop] at hspills hends
  rw [← lower_self e] at hwrote
  refine course_of_spills (Nat.le_refl _) ?_ hwrote hends htext
  rw [lower_self]
  exact hspills

theorem unclobbered_of_not_assigns (h : ∀ v, ¬ w.assigns v) : w.Unclobbered :=
  fun v hv => absurd hv (h v)

/-- A statement that has what was taken clobbers no operand if the stack does not read what it
assigns. -/
theorem unclobbered_last (hlast : w.waiting = false)
    (h : ∀ v, w.assigns v → ∀ (d : Nat) o, w.stack[d]? = some o → v ∉ o.reads) : w.Unclobbered :=
  fun v hv => ⟨fun d o ho _ => h v hv d o ho, fun hwaiting => by rw [hlast] at hwaiting; cases hwaiting⟩

/-- **An instruction clobbers no operand.** -/
theorem Emits.course (h : Emits s index last e op e') (hv : Valid e) :
    ∃ kept ws, Course s index last op e.stack kept ws e'.stack ∧ Wrote e e' ws := by
  have hnone : ∀ {e e' : CEmitter}, e'.body = e.body → Wrote e e' [] :=
    fun hbody => (Wrote.none _).of_body hbody
  cases h with
  | nop => exact course_of_none .none (.none e) .nop (.none e)
  | load access => exact course_of_none .none (.none e) (.load access) (hnone rfl)
  | literal literal => exact course_of_none .none (.none e) (.literal literal) (hnone rfl)
  | @dup n o e₁ size settles top safe =>
    obtain ⟨ws, hspills, hwrote, -⟩ := settles.spills hv (forall_mem_nil _)
    have hsize := (settles.settling hv).size.trans size
    refine course_of_none hspills hwrote (.dup ?_) (hnone rfl)
    rw [Array.back?_eq_getElem?, hsize]
    exact top
  | @pop n size =>
    obtain ⟨o, ho, -⟩ := pop_ok e size
    refine course_of_ends (n := n) (by omega) ?_ (.none _)
    rw [drop_top size ho]
    exact .pop o
  | @store _ place type v access n o e₁ size top settles unread =>
    have hn : n ≤ e.stack.size := by omega
    obtain ⟨ws, hspills, hwrote, -⟩ := settles.spills (hv.lower hn) (hv.safe_taken hn)
    have hends : Ends s index last e₁.stack _ _ _ _ := .store access o
    rw [← drop_top size top] at hends
    refine course_of_spills hn hspills hwrote hends (wrote_one rfl (unclobbered_last rfl ?_))
    rintro _ rfl d o' ho'
    exact unread d o' ho'
  | @compute _ parts o n computes size there =>
    refine course_of_ends (n := n) (by omega) ?_ (hnone rfl)
    rw [there]
    exact .compute computes
  | @branch _ parts st n branches size there =>
    have hn : n ≤ e.stack.size := by omega
    obtain ⟨ws, hspills, hwrote, -⟩ := spills_materializeAll (hv.lower hn) (hv.safe_taken hn)
    rw [← there] at branches
    exact course_of_spills hn hspills hwrote (.branch branches)
      (wrote_one rfl (unclobbered_of_not_assigns fun _ => id))
  | @call _ k target ret slots n e₁ calls size settles unread result =>
    have hn : n ≤ e.stack.size := by omega
    have harity : (e.stack.toList.drop n).length = slots.length := by simp [size]
    have hsize : e₁.stack.size = n := (settles.settling (hv.lower hn)).size.trans (size_lower e hn)
    obtain ⟨ws, hspills, hwrote, -⟩ := settles.spills (hv.lower hn) (hv.safe_taken hn)
    cases ret with
    | none =>
      refine course_of_spills hn hspills hwrote (.call calls harity)
        (wrote_one rfl (unclobbered_last rfl ?_))
      rintro _ ⟨key, rfl⟩ d o ho
      exact unread d o ho key
    | some type =>
      have hstack : (e₁.called k (max target.args.size 1) (some type) slots
          (e.stack.toList.drop n)).stack =
          e₁.stack.push (COperand.temporary e₁.stack.size type.stackClass) := by
        simp [called, push, write]
      have hends : Ends s index last e₁.stack _ _ _ _ := .callResult calls harity
      rw [← hstack] at hends
      refine course_of_spills hn hspills hwrote hends (wrote_one ?_ (unclobbered_last rfl ?_))
      · simp [called, push, write]
      rintro _ (rfl | ⟨key, rfl⟩) d o ho
      · rw [hsize]
        exact result type rfl d o ho
      · exact unread d o ho key
  | returnNone void =>
    cases last with
    | true => exact course_of_none .none (.none e) (.returnNone void) (.none e)
    | false =>
      have hends : Ends s index false e.stack _ _ _ _ := .returnNone void
      exact course_of_none .none (.none e) hends (wrote_one rfl (unclobbered_of_not_assigns fun _ => id))
  | @returnValue n o result size top =>
    have hends : Ends s index last (e.lower n).stack _ _ _ _ := .returnValue result o
    rw [← drop_top size top] at hends
    exact course_of_ends (by omega) hends (wrote_one rfl (unclobbered_of_not_assigns fun _ => id))

end

end CEmitter

/-! ## Functions -/

namespace CFunction

open CEmitter (Writing Spills Course Wrote)

/-- How a function is written, instruction by instruction. -/
structure Script where
  /-- The emitter before the instruction, and whether control comes from the instruction before. -/
  state : Nat → CEmitter × Bool
  /-- What settles the stack in front of the label of the instruction. -/
  lead : Nat → List Writing
  /-- What is written for the instruction. -/
  text : Nat → List Writing
  /-- The operands that the instruction leaves on the stack. -/
  kept : Nat → Nat

/-- The stack that the instruction is written on. -/
def Script.head (t : Script) (plan : CPlan) (i : Nat) : Array COperand := (headAt plan t.state i).stack

/-- The stack that the instruction leaves. -/
def Script.next (t : Script) (i : Nat) : Array COperand := (t.state (i + 1)).1.stack

/-- What is written between an instruction that can be reached and the one before: in front of a label
the stack is settled, if control comes from there. -/
structure Approach (plan : CPlan) (state : Nat → CEmitter × Bool) (i : Nat) (ws : List Writing) :
    Prop where
  body : (headAt plan state i).body.toList =
    (state i).1.body.toList ++ ws.map (·.statement) ++ if plan.isLabel i then [.label i] else []
  spills : (state i).2 = true → Spills [] (state i).1.stack ws (headAt plan state i).stack
  gap : (state i).2 = false → ws = []
  unclobbered : ∀ w ∈ ws, w.Unclobbered

/-- The script has every statement of the pass over a method. Every instruction that can be reached is
written on its head. -/
structure Pass (s : CScope) (plan : CPlan) (code : Array Instruction) (t : Script) : Prop where
  leads : ∀ (i : Nat) types, plan.entry? i = some types → Approach plan t.state i (t.lead i)
  courses : ∀ (i : Nat) types instruction, plan.entry? i = some types → code[i]? = some instruction →
    Course s i (i + 1 == code.size) instruction.op (t.head plan i) (t.kept i) (t.text i) (t.next i)
  texts : ∀ (i : Nat) types, plan.entry? i = some types →
    Wrote (headAt plan t.state i) (t.state (i + 1)).1 (t.text i)
  /-- A jump finds the operands where the label has them. -/
  jumps : ∀ (i : Nat) types instruction, plan.entry? i = some types → code[i]? = some instruction →
    ∀ j ∈ instruction.op.targets, t.head plan j = t.next i

section
variable {s : CScope} {plan : CPlan} {code : Array Instruction} {state : Nat → CEmitter × Bool}
  {f : CFunction} {i : Nat} {types : List CType} {instruction : Instruction}

theorem Text.exists_lead (h : Text s plan code state f) (hi : plan.entry? i = some types) :
    ∃ ws, Approach plan state i ws := by
  obtain ⟨instruction, -, hw⟩ := h.written_at hi
  cases hlive : (state i).2 with
  | false =>
    obtain ⟨e₁, -, hsame, -, hbody⟩ :=
      headOf_cases hw.before plan (plan.typesAt i) (state i).2 i
    rw [hlive] at hsame
    refine ⟨[], ?_, by simp [hlive], fun _ => rfl, by simp⟩
    rw [headAt, headIn, hbody, hsame.resolve_left (by simp)]
    simp
  | true =>
    have htypes := (h.consistent h.sound (Nat.le_of_lt (h.sound.lt hi))).live hlive (h.sound.lt hi)
    have hgap : (state i).2 = false → ∀ ws : List Writing, ws = [] := by simp [hlive]
    rcases falls htypes hlive hw.before with ⟨hlabel, hhead⟩ | ⟨hlabel, hhead⟩
    · refine ⟨[], by simp [hhead, hlabel], fun _ => ?_, fun hdead => hgap hdead _, by simp⟩
      rw [hhead]
      exact .none
    · obtain ⟨ws, hspills, hwrote, -⟩ := spills_materializeAll hw.before (forall_mem_nil _)
      refine ⟨ws, ?_, fun _ => ?_, fun hdead => hgap hdead _, hwrote.unclobbered⟩
      · rw [hhead, if_pos hlabel, ← hwrote.body]
        simp [write]
      · rw [hhead]
        exact hspills

theorem Text.exists_course (h : Text s plan code state f) (hi : plan.entry? i = some types)
    (hcode : code[i]? = some instruction) : ∃ kept ws,
      Course s i (i + 1 == code.size) instruction.op (headAt plan state i).stack kept ws
        (state (i + 1)).1.stack ∧
      Wrote (headAt plan state i) (state (i + 1)).1 ws :=
  have hw := h.written h.sound hi hcode
  hw.emits.course hw.head

/-- **No statement of a function clobbers an operand that waits.** -/
theorem Text.pass (h : Text s plan code state f) :
    ∃ t : Script, t.state = state ∧ Pass s plan code t := by
  have hlead : ∀ i, ∃ ws, ∀ types, plan.entry? i = some types → Approach plan state i ws := by
    intro i
    by_cases hi : ∃ types, plan.entry? i = some types
    · obtain ⟨types, hi⟩ := hi
      obtain ⟨ws, hws⟩ := h.exists_lead hi
      exact ⟨ws, fun _ _ => hws⟩
    · exact ⟨[], fun types htypes => absurd ⟨types, htypes⟩ hi⟩
  have htext : ∀ i, ∃ kept ws, ∀ types instruction, plan.entry? i = some types →
      code[i]? = some instruction →
      Course s i (i + 1 == code.size) instruction.op (headAt plan state i).stack kept ws
        (state (i + 1)).1.stack ∧
      Wrote (headAt plan state i) (state (i + 1)).1 ws := by
    intro i
    by_cases hi : ∃ types, plan.entry? i = some types
    · obtain ⟨types, hi⟩ := hi
      obtain ⟨instruction, hcode, -⟩ := h.written_at hi
      obtain ⟨kept, ws, hcourse⟩ := h.exists_course hi hcode
      refine ⟨kept, ws, fun _ instruction' _ hcode' => ?_⟩
      obtain rfl := Option.some.inj (hcode.symm.trans hcode')
      exact hcourse
    · exact ⟨0, [], fun types _ htypes => absurd ⟨types, htypes⟩ hi⟩
  choose lead hlead using hlead
  choose kept text htext using htext
  refine ⟨⟨state, lead, text, kept⟩, rfl, hlead,
    fun i types instruction hi hcode => (htext i types instruction hi hcode).1, fun i types hi => ?_,
    fun i types instruction hi hcode j hj => ?_⟩
  · obtain ⟨instruction, hcode, -⟩ := h.written_at hi
    exact (htext i types instruction hi hcode).2
  · have hw := h.written h.sound hi hcode
    have hentry := hw.leaves j (mem_append_left _ hj)
    have hlabel := h.sound.label i j instruction hcode hj (h.sound.lt hentry)
    exact (stack_of_label hentry hlabel).trans (hw.emits.stack_of_target hw.head hj).symm

end

end CFunction

end DeviceCode
