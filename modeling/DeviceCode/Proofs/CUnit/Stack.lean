import DeviceCode.Proofs.CUnit.Spills
import DeviceCode.Proofs.CUnit.Variables

/-!
# The symbolic stack at run time

`COperand.Means`: an operand is a signed integer that comes to `x`, and every place in it is one that
the operand is known to read. So a write to a variable that it does not read keeps its value
(`Means.put`). `CEmitter.Holds`: all operands of the symbolic stack come to the integers `xs`.

Main statement: `CEmitter.Spills.runs`, the statements that put operands into their temporaries run, keep
the values of all operands, those that were taken off included, and change nothing but temporaries.
-/

namespace DeviceCode

open COperand

open CFrame

open CFunction

open List

variable {m : CompiledMethod} {layout : LayoutTable} {depth : Nat} {o : COperand} {x : Int32}
  {cf cf' : CFrame} {v v' : CVar} {place place' : CPlace} {home : Home}

/-- The variable is known to stand in the place. -/
inductive CompiledMethod.Names (m : CompiledMethod) (layout : LayoutTable) : CVar → CPlace → Prop
  | ofVariable {v : CVar} {place : CPlace} {home : Home} (located : m.Locates layout v place home) :
    Names m layout v place
  | temporary (depth : Nat) (type : CType) :
    Names m layout (.temporary depth type) (.temporary depth type)

theorem CompiledMethod.Locates.apart_names (hm : m.Integers layout) (h : m.Locates layout v place home)
    (h' : m.Names layout v' place') (hne : v ≠ v') : place.Disjoint place' := by
  cases h' with
  | ofVariable located => exact h.apart hm located hne
  | temporary depth type => cases h <;> exact CPlace.noConfusion

theorem CompiledMethod.Names.eq_temporary {type : CType}
    (h : m.Names layout v (.temporary depth type)) : v = .temporary depth type := by
  cases h with
  | ofVariable located => cases located
  | temporary depth => rfl

/-! ## Operands -/

namespace COperand

/-- The operand is a signed integer that comes to `x`, and it is known to read its places. -/
structure Means (m : CompiledMethod) (layout : LayoutTable) (cf : CFrame) (o : COperand) (x : Int32) :
    Prop extends Yields cf o x where
  tracked : o.Tracked (m.Names layout)

theorem Means.of_get (h : o.Means m layout cf x)
    (hget : ∀ v ∈ o.reads, ∀ place, m.Names layout v place → cf'.get place = cf.get place) :
    o.Means m layout cf' x :=
  ⟨⟨h.native, (h.tracked.eval_eq hget).trans h.value⟩, h.tracked⟩

theorem means_temporary (m : CompiledMethod) (layout : LayoutTable)
    (h : cf.get (.temporary depth .i4) = .ok (.int x)) : (temporary depth .i4).Means m layout cf x :=
  ⟨⟨rfl, h⟩, tracked_temporary (.temporary depth .i4)⟩

theorem means_int (m : CompiledMethod) (layout : LayoutTable) (cf : CFrame) (x : Int32) :
    (int x).Means m layout cf x := by
  refine ⟨⟨rfl, by rw [int, literal, CExpr.eval]⟩, fun place hplace => ?_⟩
  simp [int, literal, CExpr.places] at hplace

theorem means_ofPlace (hv : m.Names layout v place)
    (h : cf.get place = .ok (.int x)) : (ofPlace place .i4 v).Means m layout cf x := by
  refine ⟨⟨rfl, h⟩, fun place' hplace => ⟨v, mem_singleton.2 rfl, ?_⟩⟩
  rwa [mem_singleton.1 hplace]

/-- **A variable that the operand does not read** may be written. -/
theorem Means.put (hm : m.Integers layout) (h : o.Means m layout cf x) (hfits : cf.Fits place)
    (hv : m.Locates layout v place home) (hunread : v ∉ o.reads) (y : Int32) :
    o.Means m layout (cf.put place y) x :=
  h.of_get fun _ hv' _ hnames =>
    get_put_ne hfits (hv.apart_names hm hnames fun heq => hunread (heq ▸ hv')) y

theorem Means.put_temporary (h : o.Means m layout cf x) (hunread : .temporary depth .i4 ∉ o.reads)
    (y : Int32) : o.Means m layout (cf.put (.temporary depth .i4) y) x := by
  refine h.of_get fun v' hv' place' hnames => get_put_temporary_ne (fun heq => hunread ?_) y
  rw [heq] at hnames
  exact hnames.eq_temporary ▸ hv'

theorem Means.of_kept {o' : COperand} (h : o.Means m layout cf x) (hkept : Kept cf cf' o o') :
    o'.Means m layout cf' x := by
  cases hkept with
  | same unchanged => exact ⟨⟨h.native, unchanged.trans h.value⟩, h.tracked⟩
  | moved given =>
    rw [value, h.value, h.toYields.type_eq] at given
    rw [h.toYields.type_eq]
    exact means_temporary m layout given

theorem means_of_kept {os os' : List COperand} {xs : List Int32}
    (h : List.Forall₂ (Means m layout cf) os xs) (hkept : List.Forall₂ (Kept cf cf') os os') :
    List.Forall₂ (Means m layout cf') os' xs := by
  induction h generalizing os' with
  | nil =>
    cases hkept
    exact .nil
  | cons ho _ ih =>
    cases hkept with
    | cons hfirst hrest => exact .cons (ho.of_kept hfirst) (ih hrest)

end COperand

namespace CEmitter

/-! ## Stacks -/

/-- The operands come to those integers, the lowest first. -/
def Holds (m : CompiledMethod) (layout : LayoutTable) (e : CEmitter) (cf : CFrame)
    (xs : List Int32) : Prop :=
  List.Forall₂ (COperand.Means m layout cf) e.stack.toList xs

section
variable {e e' : CEmitter} {xs ys : List Int32}

theorem Holds.of_stack (h : Holds m layout e cf xs) (hs : e'.stack = e.stack) :
    Holds m layout e' cf xs := by
  rwa [Holds, hs]

theorem Holds.of_means (h : Holds m layout e cf xs)
    (hmeans : ∀ (d : Nat) o x, e.stack[d]? = some o → o.Means m layout cf x → o.Means m layout cf' x) :
    Holds m layout e cf' xs := by
  have hmem := (forall₂_and_left _ _).2 ⟨fun o (ho : o ∈ e.stack.toList) => ho, h⟩
  refine hmem.imp fun o x hx => ?_
  obtain ⟨d, hd⟩ := Array.mem_iff_getElem?.1 (Array.mem_toList_iff.1 hx.1)
  exact hmeans d o x hd hx.2

theorem Holds.push (h : Holds m layout e cf xs) (ho : o.Means m layout cf x) :
    Holds m layout (e.push o) cf (xs ++ [x]) := by
  rw [Holds, CEmitter.push, Array.toList_push]
  exact rel_append h (.cons ho .nil)

theorem Holds.split (h : Holds m layout e cf (xs ++ ys)) :
    e.stack.size = xs.length + ys.length ∧ Holds m layout (e.lower xs.length) cf xs ∧
      List.Forall₂ (COperand.Means m layout cf) (e.stack.toList.drop xs.length) ys := by
  refine ⟨by simpa using List.Forall₂.length_eq h, ?_, forall₂_drop_append _ _ _ h⟩
  simpa [Holds, lower] using forall₂_take_append _ _ _ h

end

/-! ## Spilling -/

section
variable {u : CUnit} {f : CFunction} {moves : List CMove} {st : CStmt}

theorem Makes.runs (h : Makes moves st) (hmoves : ∀ m ∈ moves, m.type = .i4 ∧
      (m.depth, .i4) ∈ f.temporaries ∧ ∃ x, m.value.eval cf = .ok (.int x)) :
    ∃ cf', u.Executes f cf st cf' ∧ ∀ rest, u.Goes f cf (st :: rest) cf' rest := by
  have hassign : ∀ {move : CMove} {x : Int32} (cf : CFrame), move ∈ moves →
      ∃ cf', f.assign cf (.temporary move.depth move.type) (.int x) = .ok cf' := by
    intro move x cf hmove
    obtain ⟨htype, hdeclared, -⟩ := hmoves move hmove
    rw [htype]
    exact ⟨_, assign_ok (typeOf?_temporary hdeclared) (cf.fits_temporary _) x⟩
  cases h with
  | one move =>
    obtain ⟨-, -, x, hx⟩ := hmoves move (mem_singleton_self move)
    obtain ⟨cf', hcf'⟩ := hassign (x := x) cf (mem_singleton_self move)
    exact ⟨cf', .assign hx hcf', fun _ => CUnit.goes_assign hx hcf'⟩
  | all =>
    choose! value hvalue using fun move hmove => (hmoves move hmove).2.2
    have hvalues : moves.mapM (fun m => do (← m.value.eval cf).cast m.type) =
        .ok (moves.map fun m => .int (value m)) := by
      rw [except_mapM_ok, forall₂_map_right_iff, forall₂_same]
      intro move hmove
      rw [hvalue move hmove, (hmoves move hmove).1]
      exact CNumber.cast_int_i4 _
    obtain ⟨cf', hfold⟩ : ∃ cf', (moves.zip (moves.map fun m => CNumber.int (value m))).foldlM
        (fun frame p => f.assign frame (.temporary p.1.depth p.1.type) p.2) cf = .ok cf' := by
      refine (except_foldlM_exists (fun _ _ => True) ?_ trivial).imp fun _ h => h.1
      rintro done ⟨move, x⟩ rest frame hsplit -
      obtain ⟨hmove, hx⟩ := of_mem_zip (hsplit ▸ mem_append_right done mem_cons_self)
      obtain ⟨-, -, rfl⟩ := mem_map.1 hx
      exact (hassign frame hmove).imp fun _ h => ⟨h, trivial⟩
    have hmoved : f.moveAll cf moves = .ok cf' := except_bind_ok.2 ⟨_, hvalues, hfold⟩
    exact ⟨cf', .moveAll hmoved, fun _ => CUnit.goes_moveAll hmoved⟩

/-- **Operands that are put into their temporaries** keep their values, and so do those that were taken
off the stack. -/
theorem Spills.runs {taken : List COperand} {stack stack' : Array COperand} {ws : List Writing}
    {xs : List Int32} (h : Spills taken stack ws stack') (hws : ∀ w ∈ ws, w.Unclobbered)
    (hdeclared : ∀ w ∈ ws, ∀ d t, w.assigns (.temporary d t) → (d, t) ∈ f.temporaries)
    (hmeans : List.Forall₂ (COperand.Means m layout cf) (stack.toList ++ taken) xs)
    (rest : List CStmt) :
    ∃ cf', u.Goes f cf (ws.map (·.statement) ++ rest) cf' rest ∧
      List.Forall₂ (COperand.Means m layout cf') (stack'.toList ++ taken) xs ∧
      SameBut (fun place => ∃ d t, place = .temporary d t) cf cf' := by
  induction h generalizing rest with
  | none => exact ⟨cf, .refl, hmeans, rfl, rfl, fun _ _ => rfl⟩
  | @step ws before after moves st spilt text nodup there moved ih =>
    obtain ⟨cf₁, hgoes, hmeans₁, hsame₁⟩ := ih (fun w hw => hws w (mem_append_left _ hw))
      (fun w hw => hdeclared w (mem_append_left _ hw)) (st :: rest)
    have hlast : Writing.spill taken before moves st ∈ ws ++ [.spill taken before moves st] := by simp
    have hoperand : ∀ o ∈ before.toList ++ taken, ∃ x, o.Means m layout cf₁ x := fun o ho =>
      (forall₂_mem_right hmeans₁.flip o ho).imp fun _ h => h.2
    have hmoves : ∀ move ∈ moves, move.type = .i4 ∧ (move.depth, .i4) ∈ f.temporaries ∧
        ∃ x, move.value.eval cf₁ = .ok (.int x) := by
      intro move hmove
      obtain ⟨o, ho, heq⟩ := there move hmove
      obtain ⟨x, hx⟩ := hoperand o
        (mem_append_left _ (Array.mem_toList_iff.2 (Array.mem_of_getElem? ho)))
      have htype : move.type = .i4 := by
        rw [heq]
        exact hx.toYields.type_eq
      refine ⟨htype, htype ▸ hdeclared _ hlast _ _ ⟨move, hmove, rfl⟩, x, ?_⟩
      rw [heq]
      exact hx.value
    obtain ⟨cf', hx, hgoes'⟩ := text.runs (u := u) hmoves
    have hkept := kept_of_spill (fun _ _ _ hv => hv.eq_temporary) text nodup there moved
      (hws _ hlast) hx fun o ho => (hoperand o ho).choose_spec.tracked
    obtain ⟨-, hsame⟩ := text.executes hx nodup (Makes.class there)
    refine ⟨cf', ?_, means_of_kept hmeans₁ hkept, hsame₁.trans hsame (fun _ h => h) ?_⟩
    · rw [map_append, append_assoc]
      exact hgoes.trans (hgoes' rest)
    · rintro place ⟨move, -, rfl⟩
      exact ⟨_, _, rfl⟩

end

end CEmitter

end DeviceCode
