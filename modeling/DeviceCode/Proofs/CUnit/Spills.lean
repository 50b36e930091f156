import DeviceCode.Proofs.CUnit.Effects
import DeviceCode.Proofs.CUnit.Pending

/-!
# Operands in their temporaries

`COperand.Tracked`: every place in an operand is one of a variable that it is known to read, so that
statements which do not assign these variables keep its value. `COperand.Kept`: the operand that now stands
for another one has the value of that one. Main statement: `CEmitter.kept_of_spill`, a statement that puts
operands into their temporaries keeps the operands on the stack and those that were taken off it.
-/

namespace DeviceCode

open COperand

open CFrame

open CFunction

open List

variable {places : CVar → CPlace → Prop} {o : COperand} {cf cf' : CFrame}

namespace COperand

/-- What the operand comes to, as a number of its type on the stack. -/
def value (cf : CFrame) (o : COperand) : Except CFault CNumber := do (← o.expr.eval cf).cast o.type

/-- Every place in the operand is one of a variable that it reads. -/
def Tracked (places : CVar → CPlace → Prop) (o : COperand) : Prop :=
  ∀ place ∈ o.expr.places, ∃ v ∈ o.reads, places v place

theorem Tracked.eval_eq (h : o.Tracked places)
    (hsame : ∀ v ∈ o.reads, ∀ place, places v place → cf'.get place = cf.get place) :
    o.expr.eval cf' = o.expr.eval cf :=
  CExpr.eval_congr fun place hplace => by
    obtain ⟨v, hv, hvplace⟩ := h place hplace
    exact hsame v hv place hvplace

theorem tracked_temporary {depth : Nat} {type : CType}
    (h : places (.temporary depth type) (.temporary depth type)) :
    (temporary depth type).Tracked places := by
  intro place hplace
  obtain rfl := mem_singleton.1 hplace
  exact ⟨_, mem_singleton_self _, h⟩

theorem ComputedFrom.tracked {parts : List COperand} (h : ComputedFrom parts o)
    (hparts : ∀ p ∈ parts, p.Tracked places) : o.Tracked places := by
  intro place hplace
  obtain ⟨expr, native, rfl, -, hplaces⟩ := h
  obtain ⟨p, hp, hplace⟩ := hplaces place hplace
  obtain ⟨v, hv, hvplace⟩ := hparts p hp place hplace
  exact ⟨v, mem_readsOf.2 ⟨p, hp, hv⟩, hvplace⟩

/-- The operand has become the other one: it stands in a temporary, or it comes to what it came to. -/
inductive Kept (cf cf' : CFrame) (o : COperand) : COperand → Prop
  | same (unchanged : o.expr.eval cf' = o.expr.eval cf) : Kept cf cf' o o
  | moved {depth : Nat} (given : cf'.get (.temporary depth o.type) = o.value cf) :
    Kept cf cf' o (temporary depth o.type)

theorem value_cast (o : COperand) (cf : CFrame) : (o.value cf >>= (·.cast o.type)) = o.value cf := by
  cases hx : o.value cf with
  | error e => rfl
  | ok x =>
    obtain ⟨y, -, hy⟩ := except_bind_ok.1 hx
    exact CNumber.cast_of_cast o.stackClass_type hy

theorem Kept.value_eq {o' : COperand} (h : Kept cf cf' o o') : o'.value cf' = o.value cf := by
  cases h with
  | same unchanged => rw [value, value, unchanged]
  | moved given =>
    show (cf'.get (.temporary _ o.type) >>= (·.cast o.type.stackClass)) = _
    rw [given, stackClass_type]
    exact o.value_cast cf

theorem map_value_of_kept {os os' : List COperand} (h : List.Forall₂ (Kept cf cf') os os') :
    os'.map (·.value cf') = os.map (·.value cf) := by
  induction h with
  | nil => rfl
  | cons ho _ ih => rw [map_cons, map_cons, ho.value_eq, ih]

end COperand

namespace CEmitter

section
variable {u : CUnit} {f : CFunction} {taken : List COperand} {stack stack' : Array COperand}
  {ws : List Writing} {moves : List CMove} {st : CStmt}

/-- A statement that makes moves gives the temporaries their values, and changes nothing else. -/
theorem Makes.executes (h : Makes moves st)
    (hx : u.Executes f cf st cf') (hnodup : (moves.map (·.depth)).Nodup)
    (hclass : ∀ m ∈ moves, m.type.stackClass = m.type) :
    (∀ m ∈ moves, cf'.get (.temporary m.depth m.type) = (m.value.eval cf >>= (·.cast m.type))) ∧
      SameBut (fun place => ∃ m ∈ moves, place = .temporary m.depth m.type) cf cf' := by
  cases h with
  | one m =>
    cases hx with
    | assign evaluated assigned =>
      obtain ⟨hgiven, hothers⟩ := assign_temporary_ok assigned
      refine ⟨fun m' hm' => ?_, hothers.mono fun place hplace => ⟨m, mem_singleton_self m, hplace⟩⟩
      rw [mem_singleton.1 hm', evaluated]
      exact hgiven
  | all =>
    cases hx with
    | moveAll moved => exact moveAll_ok moved hnodup hclass

theorem Makes.class (hthere : ∀ m ∈ moves, ∃ o, stack[m.depth]? = some o ∧ m = ⟨m.depth, o.type, o.expr⟩) :
    ∀ m ∈ moves, m.type.stackClass = m.type := by
  intro m hm
  obtain ⟨o, -, heq⟩ := hthere m hm
  rw [heq]
  exact o.stackClass_type

variable (hplaces : ∀ v depth type, places v (.temporary depth type) → v = .temporary depth type)

include hplaces in
/-- **A statement that spills** keeps the operands on the stack and those that were taken off it. -/
theorem kept_of_spill (hmakes : Makes moves st) (hnodup : (moves.map (·.depth)).Nodup)
    (hthere : ∀ m ∈ moves, ∃ o, stack[m.depth]? = some o ∧ m = ⟨m.depth, o.type, o.expr⟩)
    (hmoved : ∀ d : Nat, stack'[d]? = if d ∈ moves.map (·.depth)
      then stack[d]?.map fun o => COperand.temporary d o.type else stack[d]?)
    (hw : (Writing.spill taken stack moves st).Unclobbered) (hx : u.Executes f cf st cf')
    (htracked : ∀ o ∈ stack.toList ++ taken, o.Tracked places) :
    List.Forall₂ (Kept cf cf') (stack.toList ++ taken) (stack'.toList ++ taken) := by
  obtain ⟨hgiven, hothers⟩ := hmakes.executes hx hnodup (Makes.class hthere)
  -- an operand that reads none of the temporaries comes to what it came to
  have hsame : ∀ {o : COperand}, o ∈ stack.toList ++ taken →
      (∀ m ∈ moves, .temporary m.depth m.type ∉ o.reads) → Kept cf cf' o o := by
    intro o ho hreads
    refine .same ((htracked o ho).eval_eq fun v hv place hplace => hothers.places place ?_)
    rintro ⟨m, hm, rfl⟩
    exact hreads m hm (hplaces v _ _ hplace ▸ hv)
  refine rel_append (forall₂_of_getElem? fun d => ?_) (forall₂_same.2 fun o ho => ?_)
  · rw [Array.getElem?_toList, Array.getElem?_toList, hmoved]
    cases hd : stack[d]? with
    | none => split <;> exact .none
    | some o =>
      by_cases hmem : d ∈ moves.map (·.depth)
      · obtain ⟨m, hm, rfl⟩ := mem_map.1 hmem
        obtain ⟨o', ho', heq⟩ := hthere m hm
        obtain rfl := Option.some.inj (hd.symm.trans ho')
        have hvalue := hgiven m hm
        rw [heq] at hvalue
        rw [if_pos hmem]
        exact .some (.moved hvalue)
      · rw [if_neg hmem]
        refine .some (hsame (mem_append_left _ ?_) fun m hm => ?_)
        · exact Array.mem_toList_iff.2 (Array.mem_of_getElem? hd)
        · exact (hw _ ⟨m, hm, rfl⟩).1 d o hd hmem
  · exact hsame (mem_append_right _ ho) fun m hm => (hw _ ⟨m, hm, rfl⟩).2 rfl o ho

end

end CEmitter

end DeviceCode
