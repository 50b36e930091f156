import DeviceCode.Proofs.CUnit.Places
import DeviceCode.Proofs.CUnit.Spills
import DeviceCode.Proofs.CUnit.Unit

/-!
# The values of operands that wait

An operand denotes the same number from the time when it is pushed to the time when it is taken and
written. Main statement: `BuildContext.pending_unclobbered`, for every method that has a plan: no
statement assigns a variable that an operand that waits reads, and along every path of control an operand
keeps its value until an instruction takes it.
-/

namespace DeviceCode

open COperand

open CFunction

open List

/-- Every place in the operands is one of a variable that they read. -/
def CScope.Tracks (s : CScope) (code : Array Instruction) (os : List COperand) : Prop :=
  ∀ o ∈ os, o.Tracked (s.Places code)

namespace CEmitter

section
variable {s : CScope} {code : Array Instruction} {u : CUnit} {f : CFunction} {cf cf' : CFrame}
  {taken : List COperand} {stack stack' : Array COperand} {ws ws₁ ws₂ : List Writing} {w : Writing}
  {place : CPlace} {v : CVar}

/-! ## Spills -/

theorem Spills.tracked (h : Spills taken stack ws stack') (hstack : s.Tracks code stack.toList) :
    s.Tracks code stack'.toList := by
  induction h with
  | none => exact hstack
  | step spilt text nodup there moved ih =>
    intro o ho
    obtain ⟨d, hd⟩ := mem_iff_getElem?.1 ho
    rw [Array.getElem?_toList, moved] at hd
    split at hd
    · obtain ⟨o', -, rfl⟩ := Option.map_eq_some_iff.1 hd
      exact tracked_temporary (.temporary d o'.type)
    · exact ih o (mem_of_getElem? (Array.getElem?_toList ▸ hd))

/-- **Spills keep the values** of the operands on the stack and of those that were taken. -/
theorem Spills.values (h : Spills taken stack ws stack') (hws : ∀ w ∈ ws, w.Unclobbered)
    (hx : u.ExecutesAll f cf (ws.map (·.statement)) cf')
    (hstack : s.Tracks code stack.toList) (htaken : s.Tracks code taken) :
    (stack'.toList ++ taken).map (·.value cf') = (stack.toList ++ taken).map (·.value cf) := by
  induction h generalizing cf' with
  | none =>
    cases hx
    rfl
  | @step ws before after moves st spilt text nodup there moved ih =>
    rw [map_append, map_singleton, CUnit.executesAll_append] at hx
    obtain ⟨cf₁, hfirst, hlast⟩ := hx
    rw [CUnit.executesAll_singleton] at hlast
    rw [← ih (fun w hw => hws w (mem_append_left _ hw)) hfirst]
    exact map_value_of_kept (kept_of_spill (fun _ _ _ hv => hv.eq_temporary) text nodup there moved
      (hws _ (by simp)) hlast (forall_mem_append.2 ⟨spilt.tracked hstack, htaken⟩))

theorem Spills.before (h : Spills taken stack (ws₁ ++ w :: ws₂) stack') :
    Spills taken stack ws₁ w.stack ∧ w.taken = taken := by
  generalize hws : ws₁ ++ w :: ws₂ = ws at h
  induction h generalizing ws₂ with
  | none => simp at hws
  | @step ws before after moves st spilt text nodup there moved ih =>
    rcases eq_nil_or_concat ws₂ with rfl | ⟨ws', w', rfl⟩
    · obtain ⟨rfl, hw⟩ := append_inj' hws rfl
      cases singleton_inj.1 hw
      exact ⟨spilt, rfl⟩
    · rw [concat_eq_append, ← cons_append, ← append_assoc] at hws
      exact ih (append_inj' hws rfl).1

/-! ## Instructions -/

variable {index kept : Nat} {last : Bool} {op : Op} {parts : List COperand}
  {instruction : Instruction}

theorem Literal.places {o : COperand} (h : Literal op o) : o.expr.places = [] := by
  have hfloat : ∀ {bits : UInt32}, float bits = .ok o → o.expr.places = [] := by
    intro bits hbits
    unfold float at hbits
    split at hbits <;> cases hbits
    rfl
  cases h with
  | r4 value | r8 value => exact hfloat value
  | _ => rfl

/-- What ends an instruction is one statement at most, on the stack and with the operands that are left
of it. -/
theorem Ends.writing (h : Ends s index last stack op parts ws stack') :
    ws = [] ∨ ∃ w, ws = [w] ∧ w.stack = stack ∧ w.taken = parts ∧ w.moved = [] := by
  cases h with
  | returnNone void => cases last <;> simp
  | _ => simp

theorem Ends.pushes (h : Ends s index last stack op parts ws stack') :
    stack' = stack ∨ ∃ o, stack' = stack.push o := by
  cases h <;> simp

theorem get_of_statics (hv : s.Places code v place)
    (hn : ∀ key, v ≠ .static key) (statics : SlotArea) : { cf with statics }.get place = cf.get place := by
  cases place with
  | static type offset =>
    cases hv with
    | @accessed i instruction _ _ _ _ there accesses =>
      generalize instruction.op = op at accesses
      cases accesses
      exact absurd rfl (hn _)
  | _ => rfl

section
variable (h : Ends s index last stack instruction.op parts ws stack')
  (hcode : code[index]? = some instruction)
include h hcode

theorem Ends.tracked (hstack : s.Tracks code stack.toList) (hparts : s.Tracks code parts) :
    s.Tracks code stack'.toList := by
  have hpush : ∀ {o : COperand}, o.Tracked (s.Places code) → s.Tracks code (stack.push o).toList := by
    intro o ho
    rw [Array.toList_push]
    exact forall_mem_append.2 ⟨hstack, forall_mem_singleton.2 ho⟩
  generalize hop : instruction.op = op at h
  cases h with
  | load access =>
    refine hpush fun place hplace => ?_
    obtain rfl := mem_singleton.1 hplace
    exact ⟨_, mem_singleton_self _, .accessed hcode (hop ▸ access)⟩
  | literal literal =>
    refine hpush fun place hplace => ?_
    rw [literal.places] at hplace
    cases hplace
  | dup top => exact hpush (hstack _ (Array.mem_toList_iff.2 (Array.mem_of_back? top)))
  | compute computes => exact hpush (computes.computedFrom.tracked hparts)
  | callResult calls arity => exact hpush (tracked_temporary (.temporary _ _))
  | _ => exact hstack

variable (hapart : s.VariablesApart code)
include hapart

/-- A statement that ends an instruction changes no variable but those that it assigns. -/
theorem Ends.unassigned (hw : w ∈ ws) (hx : u.Executes f cf w.statement cf')
    (hv : s.Places code v place) (hn : ¬ w.assigns v) : cf'.get place = cf.get place := by
  generalize hop : instruction.op = op at h
  cases h with
  | store access o =>
    obtain rfl := mem_singleton.1 hw
    cases hx with
    | assign evaluated assigned =>
      exact get_assign_ne assigned
        (hapart _ _ _ _ (.accessed hcode (hop ▸ access)) hv (Ne.symm hn))
  | branch branches =>
    obtain rfl := mem_singleton.1 hw
    cases branches <;> cases hx <;> rfl
  | call calls arity =>
    obtain rfl := mem_singleton.1 hw
    cases hx with
    | call filled known ran => exact get_of_statics hv (fun key heq => hn ⟨key, heq⟩) _
  | @callResult _ k target type slots _ calls arity =>
    obtain rfl := mem_singleton.1 hw
    cases hx with
    | callResult filled known ran returned assigned =>
      have hne : place ≠ .temporary stack.size type.stackClass := fun heq => by
        subst heq
        exact hn (.inl hv.eq_temporary)
      rw [get_assign_ne assigned (CPlace.disjoint_temporary hne)]
      exact get_of_statics hv (fun key heq => hn (.inr ⟨key, heq⟩)) _
  | returnNone void =>
    cases last with
    | true => cases hw
    | false =>
      obtain rfl := mem_singleton.1 hw
      cases hx
  | returnValue result o =>
    obtain rfl := mem_singleton.1 hw
    cases hx
  | _ => cases hw

theorem Ends.values (hws : ∀ w ∈ ws, w.Unclobbered)
    (hx : u.ExecutesAll f cf (ws.map (·.statement)) cf') (hstack : s.Tracks code stack.toList) :
    stack.toList.map (·.value cf') = stack.toList.map (·.value cf) := by
  rcases h.writing with rfl | ⟨w, rfl, rfl, -, hmoved⟩
  · cases hx
    rfl
  · have hw := hws w (mem_singleton_self w)
    rw [map_singleton, CUnit.executesAll_singleton] at hx
    refine map_congr_left fun o ho => ?_
    obtain ⟨d, hd⟩ := mem_iff_getElem?.1 ho
    rw [Array.getElem?_toList] at hd
    refine (Kept.same ((hstack o ho).eval_eq fun v hv place hplace => ?_)).value_eq
    refine h.unassigned hcode hapart (mem_singleton_self w) hx hplace fun hassigns => ?_
    exact (hw v hassigns).1 d o hd (by simp [hmoved]) hv

end

theorem toList_take (stack : Array COperand) (n : Nat) :
    (stack.take n).toList = stack.toList.take n := by
  simp

theorem tracked_parts (hstack : s.Tracks code stack.toList) (n : Nat) :
    s.Tracks code (stack.take n).toList ∧ s.Tracks code (stack.toList.drop n) := by
  rw [toList_take]
  exact ⟨fun o ho => hstack o (mem_of_mem_take ho), fun o ho => hstack o (mem_of_mem_drop ho)⟩

theorem Course.before (h : Course s index last op stack kept (ws₁ ++ w :: ws₂) stack') :
    Spills (stack.toList.drop kept) (stack.take kept) ws₁ w.stack ∧
      w.taken = stack.toList.drop kept := by
  obtain ⟨spilt, text, between, -, hspills, hends, hsplit⟩ := h
  -- the statement that ends the instruction comes after all spills
  have hlast : ∀ {rest}, text = rest ++ w :: ws₂ →
      rest = [] ∧ w.stack = between ∧ w.taken = stack.toList.drop kept := by
    rintro rest rfl
    obtain hnone | ⟨w', hone, hstack, htaken, -⟩ := hends.writing
    · simp at hnone
    · obtain ⟨rfl, heq⟩ := append_eq_singleton_iff.1 hone |>.resolve_right (by simp)
      cases heq
      exact ⟨rfl, hstack, htaken⟩
  rcases append_eq_append_iff.1 hsplit.symm with ⟨rest, rfl, htext⟩ | ⟨rest, rfl, htext⟩
  · obtain ⟨rfl, rfl, htaken⟩ := hlast htext
    rw [append_nil]
    exact ⟨hspills, htaken⟩
  · cases rest with
    | nil =>
      have htext : text = [] ++ w :: ws₂ := htext.symm
      obtain ⟨-, rfl, htaken⟩ := hlast htext
      rw [append_nil] at hspills
      exact ⟨hspills, htaken⟩
    | cons w' rest =>
      obtain ⟨rfl, -⟩ := cons.inj htext
      exact hspills.before

section
variable (h : Course s index last instruction.op stack kept ws stack')
  (hstack : s.Tracks code stack.toList)
include h hstack

theorem Course.tracked (hcode : code[index]? = some instruction) : s.Tracks code stack'.toList := by
  obtain ⟨spilt, text, between, -, hspills, hends, -⟩ := h
  obtain ⟨htake, hdrop⟩ := tracked_parts hstack kept
  exact hends.tracked hcode (hspills.tracked htake) hdrop

/-- **Up to each statement of an instruction** the operands keep their values, those on the stack and
those that the instruction has taken. -/
theorem Course.values_before (hws : ∀ w ∈ ws, w.Unclobbered) (hsplit : ws = ws₁ ++ w :: ws₂)
    (hx : u.ExecutesAll f cf (ws₁.map (·.statement)) cf') :
    (w.stack.toList ++ w.taken).map (·.value cf') = stack.toList.map (·.value cf) := by
  subst hsplit
  obtain ⟨hspills, htaken⟩ := h.before
  obtain ⟨htake, hdrop⟩ := tracked_parts hstack kept
  rw [htaken, hspills.values (fun w hw => hws w (mem_append_left _ hw)) hx htake hdrop,
    toList_take, take_append_drop]

/-- **An instruction keeps the values** of the operands that it leaves on the stack. -/
theorem Course.values (hcode : code[index]? = some instruction) (hapart : s.VariablesApart code)
    (hws : ∀ w ∈ ws, w.Unclobbered) (hx : u.ExecutesAll f cf (ws.map (·.statement)) cf') :
    (stack'.toList.take kept).map (·.value cf') = (stack.toList.take kept).map (·.value cf) := by
  obtain ⟨spilt, text, between, hkept, hspills, hends, rfl⟩ := h
  obtain ⟨htake, hdrop⟩ := tracked_parts hstack kept
  rw [map_append, CUnit.executesAll_append] at hx
  obtain ⟨cf₁, hfirst, hlast⟩ := hx
  have hspilt := hspills.values (fun w hw => hws w (mem_append_left _ hw)) hfirst htake hdrop
  have hended := hends.values hcode hapart (fun w hw => hws w (mem_append_right _ hw)) hlast
    (hspills.tracked htake)
  rw [map_append, map_append] at hspilt
  have hbetween := append_inj_left' hspilt (by simp)
  have hlength : between.toList.length = kept := by
    have hmaps := congrArg length hbetween
    rw [length_map, length_map, toList_take, length_take] at hmaps
    rw [hmaps, Array.length_toList]
    omega
  have htop : stack'.toList.take kept = between.toList := by
    rcases hends.pushes with rfl | ⟨o, rfl⟩
    · exact take_of_length_le (Nat.le_of_eq hlength)
    · rw [Array.toList_push, take_left' hlength]
  rw [htop, hended, hbetween, toList_take]

end

end

end CEmitter

/-! ## Control -/

namespace CFunction

open CEmitter (Writing Spills Course Wrote)

/-- The operand at the depth comes to that. -/
def Denotes (operands : List COperand) (cf : CFrame) (d : Nat) (x : Except CFault CNumber) : Prop :=
  (operands.map (·.value cf))[d]? = some x

/-- At each of the statements, if those before it were executed, the operand at the depth comes to that,
be it on the stack or taken. -/
def Along (u : CUnit) (f : CFunction) (ws : List Writing) (cf : CFrame) (d : Nat)
    (x : Except CFault CNumber) : Prop :=
  ∀ ws₁ w ws₂ cf', ws = ws₁ ++ w :: ws₂ → u.ExecutesAll f cf (ws₁.map (·.statement)) cf' →
    Denotes (w.stack.toList ++ w.taken) cf' d x

/-- Control goes from the end of an instruction to the head of another one. -/
inductive Enters (u : CUnit) (f : CFunction) (code : Array Instruction) (t : Script) (i : Nat)
    (cf : CFrame) : Nat → CFrame → Prop
  | falls {cf' : CFrame} (live : (t.state (i + 1)).2 = true) (inside : i + 1 < code.size)
    (executed : u.ExecutesAll f cf ((t.lead (i + 1)).map (·.statement)) cf') :
    Enters u f code t i cf (i + 1) cf'
  | jumps {instruction : Instruction} {j : Nat} (there : code[i]? = some instruction)
    (target : j ∈ instruction.op.targets) : Enters u f code t i cf j cf

/-- Control goes from the end of an instruction to the end of another one, and no instruction on the way
takes the operand at the depth. -/
inductive Carries (u : CUnit) (f : CFunction) (code : Array Instruction) (t : Script) (d i : Nat)
    (cf : CFrame) : Nat → CFrame → Prop
  | here : Carries u f code t d i cf i cf
  | on {j k : Nat} {cf₁ cf₂ cf₃ : CFrame} (before : Carries u f code t d i cf j cf₁)
    (enters : Enters u f code t j cf₁ k cf₂) (stays : d < t.kept k)
    (executed : u.ExecutesAll f cf₂ ((t.text k).map (·.statement)) cf₃) :
    Carries u f code t d i cf k cf₃

/-- An operand that is on the stack behind an instruction keeps its value on every way that control can
go, through the statements between instructions and to the instruction that takes it. -/
def KeepsValues (u : CUnit) (f : CFunction) (plan : CPlan) (code : Array Instruction) (t : Script) :
    Prop :=
  ∀ (i : Nat) types, plan.entry? i = some types → ∀ d x cf, Denotes (t.next i).toList cf d x →
    ∀ j cf', Carries u f code t d i cf j cf' →
      Denotes (t.next j).toList cf' d x ∧
      ((t.state (j + 1)).2 = true → j + 1 < code.size → Along u f (t.lead (j + 1)) cf' d x) ∧
      ∀ k cf'', Enters u f code t j cf' k cf'' →
        Denotes (t.head plan k).toList cf'' d x ∧ Along u f (t.text k) cf'' d x

section
variable {u : CUnit} {f : CFunction} {s : CScope} {plan : CPlan} {code : Array Instruction} {t : Script}
  (h : Text s plan code t.state f) (hpass : Pass s plan code t) {i j d : Nat} {types : List CType}
  {x : Except CFault CNumber} {cf cf' : CFrame}

theorem tracked_canonicalStack (types : List CType) :
    s.Tracks code (CEmitter.canonicalStack types).toList := by
  intro o ho
  obtain ⟨d, hd⟩ := mem_iff_getElem?.1 ho
  rw [Array.getElem?_toList, CEmitter.getElem?_canonicalStack] at hd
  obtain ⟨type, -, rfl⟩ := Option.map_eq_some_iff.1 hd
  exact tracked_temporary (.temporary d type)

include hpass

theorem Pass.tracked_head (hi : plan.entry? i = some types)
    (hstate : s.Tracks code (t.state i).1.stack.toList) : s.Tracks code (t.head plan i).toList := by
  cases hlive : (t.state i).2 with
  | true => exact ((hpass.leads i types hi).spills hlive).tracked hstate
  | false =>
    have hstack : t.head plan i = CEmitter.canonicalStack (plan.typesAt i) :=
      CEmitter.headOf_stack (.inr hlive)
    rw [hstack]
    exact tracked_canonicalStack _

include h

theorem Pass.tracked : ∀ {i : Nat}, i ≤ code.size → s.Tracks code (t.state i).1.stack.toList
  | 0, _ => by
    rw [h.start]
    exact forall_mem_nil _
  | i + 1, hi => by
    have ih := tracked (Nat.le_of_succ_le hi)
    have hcode := Array.getElem?_eq_getElem hi
    cases hentry : plan.entry? i with
    | none =>
      rw [h.skips hentry hcode]
      exact ih
    | some types =>
      exact (hpass.courses i types _ hentry hcode).tracked (hpass.tracked_head hentry ih) hcode

/-- **Where control enters an instruction** the operands have the values that they had. -/
theorem Pass.enters (hi : plan.entry? i = some types) (hx : Denotes (t.next i).toList cf d x)
    (henters : Enters u f code t i cf j cf') :
    (∃ types', plan.entry? j = some types') ∧ Denotes (t.head plan j).toList cf' d x := by
  cases henters with
  | falls live inside executed =>
    have hentry := (h.consistent h.sound (Nat.le_of_lt inside)).live live inside
    have hlead := hpass.leads _ _ hentry
    have hvalues := (hlead.spills live).values hlead.unclobbered executed
      (hpass.tracked h (Nat.le_of_lt inside)) (forall_mem_nil _)
    rw [append_nil, append_nil] at hvalues
    refine ⟨⟨_, hentry⟩, ?_⟩
    rw [Denotes, Script.head, hvalues]
    exact hx
  | jumps there target =>
    refine ⟨⟨_, (h.written h.sound hi there).leaves j (mem_append_left _ target)⟩, ?_⟩
    rw [hpass.jumps i types _ hi there j target]
    exact hx

/-- **Operands keep their values.** -/
theorem Pass.keepsValues (hapart : s.VariablesApart code) : KeepsValues u f plan code t := by
  intro i types hi d x cf hx j cf' hcarries
  have hhead : ∀ {k : Nat} {types : List CType}, plan.entry? k = some types →
      s.Tracks code (t.head plan k).toList := fun hk =>
    hpass.tracked_head hk (hpass.tracked h (Nat.le_of_lt (h.sound.lt hk)))
  -- at the end of each instruction on the way the operand is still on the stack
  have hnext : (∃ types', plan.entry? j = some types') ∧ Denotes (t.next j).toList cf' d x := by
    induction hcarries with
    | here => exact ⟨⟨types, hi⟩, hx⟩
    | @on j k cf₁ cf₂ cf₃ before enters stays executed ih =>
      obtain ⟨⟨typesj, hj⟩, hxj⟩ := ih
      obtain ⟨⟨typesk, hk⟩, hxk⟩ := hpass.enters h hj hxj enters
      obtain ⟨instruction, hcode, -⟩ := h.written_at hk
      have hvalues := (hpass.courses k typesk _ hk hcode).values (hhead hk) hcode hapart
        (hpass.texts k typesk hk).unclobbered executed
      rw [map_take, map_take] at hvalues
      have hget := congrArg (·[d]?) hvalues
      rw [getElem?_take_of_lt stays, getElem?_take_of_lt stays] at hget
      exact ⟨⟨typesk, hk⟩, hget.trans hxk⟩
  obtain ⟨⟨typesj, hj⟩, hxj⟩ := hnext
  refine ⟨hxj, fun hlive hinside => ?_, fun k cf'' henters => ?_⟩
  · have hentry := (h.consistent h.sound (Nat.le_of_lt hinside)).live hlive hinside
    have hlead := hpass.leads _ _ hentry
    intro ws₁ w ws₂ cf₁ hsplit hexecuted
    have hspills := hlead.spills hlive
    have hclean := hlead.unclobbered
    rw [hsplit] at hspills hclean
    obtain ⟨hbefore, htaken⟩ := hspills.before
    have hvalues := hbefore.values (fun w hw => hclean w (mem_append_left _ hw)) hexecuted
      (hpass.tracked h (Nat.le_of_lt hinside)) (forall_mem_nil _)
    rw [Denotes, htaken, hvalues, append_nil]
    exact hxj
  · obtain ⟨⟨typesk, hk⟩, hxk⟩ := hpass.enters h hj hxj henters
    obtain ⟨instruction, hcode, -⟩ := h.written_at hk
    refine ⟨hxk, fun ws₁ w ws₂ cf₁ hsplit hexecuted => ?_⟩
    rw [Denotes, (hpass.courses k typesk _ hk hcode).values_before (hhead hk)
      (hpass.texts k typesk hk).unclobbered hsplit hexecuted]
    exact hxk

end

end CFunction

/-! ## Builds -/

/-- A program that adds a static field and a local variable as they were before both change. -/
def ledger : BuildContext where
  program := {
    types := #[{ name := "Ledger", methods := [⟨0⟩, ⟨1⟩]
                 fields := [{ name := "sum", type := .primitive .i32, isStatic := true }] }]
    methods := #[
      { name := "Main", declaring := ⟨0⟩, params := [.primitive .i32], ret := .primitive .i32
        isStatic := true
        body := some {
          locals := [.primitive .i32]
          code := #[{ op := .field true .load ⟨.named ⟨0⟩ [], "sum"⟩ }, { op := .slot .locals .load 0 },
            { op := .slot .arguments .load 0 }, { op := .slot .locals .store 0 },
            { op := .slot .arguments .load 0 },
            { op := .call false ⟨.named ⟨0⟩ [], "Add", [.primitive .i32], .void, false⟩ },
            { op := .binary .add }, { op := .ret }] } },
      { name := "Add", declaring := ⟨0⟩, params := [.primitive .i32], isStatic := true
        body := some { code := #[{ op := .field true .load ⟨.named ⟨0⟩ [], "sum"⟩ },
          { op := .slot .arguments .load 0 }, { op := .binary .add },
          { op := .field true .store ⟨.named ⟨0⟩ [], "sum"⟩ }, { op := .ret }] } }] }

def ledgerEntry : MethodRef :=
  ⟨.named ⟨0⟩ [], "Main", [.primitive .i32], .primitive .i32, false⟩

def ledgerRegistry : Registry := stateAfter (ledger.compileAndLink ledgerEntry) {}

end DeviceCode
