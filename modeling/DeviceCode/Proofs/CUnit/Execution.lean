import DeviceCode.Proofs.CUnit.Frame

/-!
# Running statements

`CUnit.Finishes u f frame statements r`: with enough fuel the statements come to the result `r`.
`CUnit.Goes`: they lead to other statements in another frame, so that whatever these finish with, those
do too. There is one lemma for each kind of statement.
-/

namespace DeviceCode

variable {value condition : CExpr} {x : CNumber} {target callee size : Nat} {targets : List Nat}
  {args : List CArgument} {r : CResult}

namespace CUnit

/-- With enough fuel the statements come to the result. -/
def Finishes (u : CUnit) (f : CFunction) (frame : CFrame) (statements : List CStmt) (r : CResult) :
    Prop := ∃ bound, ∀ fuel, bound ≤ fuel → u.exec fuel f frame statements = .ok r

/-- Running the first statements leads to the second. -/
def Goes (u : CUnit) (f : CFunction) (frame : CFrame) (statements : List CStmt) (frame' : CFrame)
    (statements' : List CStmt) : Prop :=
  ∀ r, u.Finishes f frame' statements' r → u.Finishes f frame statements r

section
variable {u : CUnit} {f g : CFunction} {frame frame' frame'' : CFrame}
  {rest statements statements' statements'' : List CStmt} {area : SlotArea} {place : CPlace}

theorem Goes.refl : u.Goes f frame statements frame statements := fun _ h => h

theorem Goes.trans (h₁ : u.Goes f frame statements frame' statements')
    (h₂ : u.Goes f frame' statements' frame'' statements'') :
    u.Goes f frame statements frame'' statements'' := fun r h => h₁ r (h₂ r h)

theorem goes_of_exec (h : ∀ n, u.exec (n + 1) f frame statements = u.exec n f frame' statements') :
    u.Goes f frame statements frame' statements' := by
  rintro r ⟨bound, hr⟩
  refine ⟨bound + 1, fun fuel hfuel => ?_⟩
  obtain ⟨n, rfl⟩ : ∃ n, fuel = n + 1 := ⟨fuel - 1, by omega⟩
  rw [h]
  exact hr n (by omega)

theorem goes_label (index : Nat) : u.Goes f frame (.label index :: rest) frame rest :=
  goes_of_exec fun _ => rfl

theorem goes_assign (hx : value.eval frame = .ok x) (hassign : f.assign frame place x = .ok frame') :
    u.Goes f frame (.assign place value :: rest) frame' rest :=
  goes_of_exec fun n => by
    show (value.eval frame >>= fun x => f.assign frame place x >>= fun frame =>
      u.exec n f frame rest) = _
    rw [hx, except_ok_bind, hassign, except_ok_bind]

theorem goes_moveAll {moves : List CMove} (hmoves : f.moveAll frame moves = .ok frame') :
    u.Goes f frame (.moveAll moves :: rest) frame' rest :=
  goes_of_exec fun n => by
    show (f.moveAll frame moves >>= fun frame => u.exec n f frame rest) = _
    rw [hmoves, except_ok_bind]

theorem jump_ok (h : f.behindLabel? target = some statements) : f.jump target = .ok statements := by
  unfold CFunction.jump
  rw [h]

theorem goes_goto (h : f.behindLabel? target = some statements) :
    u.Goes f frame (.goto target :: rest) frame statements :=
  goes_of_exec fun n => by
    show (f.jump target >>= fun statements => u.exec n f frame statements) = _
    rw [jump_ok h, except_ok_bind]

theorem goes_gotoIf_taken (hx : condition.eval frame = .ok x) (htrue : x.isTrue = true)
    (h : f.behindLabel? target = some statements) :
    u.Goes f frame (.gotoIf condition target :: rest) frame statements :=
  goes_of_exec fun n => by
    show (condition.eval frame >>= fun x => if x.isTrue = true
      then f.jump target >>= fun statements => u.exec n f frame statements
      else u.exec n f frame rest) = _
    rw [hx, except_ok_bind, if_pos htrue, jump_ok h, except_ok_bind]

theorem goes_gotoIf_passed (target : Nat) (hx : condition.eval frame = .ok x)
    (hfalse : x.isTrue = false) : u.Goes f frame (.gotoIf condition target :: rest) frame rest :=
  goes_of_exec fun n => by
    show (condition.eval frame >>= fun x => if x.isTrue = true
      then f.jump target >>= fun statements => u.exec n f frame statements
      else u.exec n f frame rest) = _
    rw [hx, except_ok_bind, if_neg (by rw [hfalse]; decide)]

theorem goes_switch_taken {x : Int32} (hx : value.eval frame = .ok (.int x))
    (htarget : CFunction.switchTarget? targets (.int x) = .ok (some target))
    (h : f.behindLabel? target = some statements) :
    u.Goes f frame (.switch value targets :: rest) frame statements :=
  goes_of_exec fun n => by
    simp [exec, hx, except_ok_bind, htarget, jump_ok h]

theorem goes_switch_passed {x : Int32} (hx : value.eval frame = .ok (.int x))
    (htarget : CFunction.switchTarget? targets (.int x) = .ok none) :
    u.Goes f frame (.switch value targets :: rest) frame rest :=
  goes_of_exec fun n => by
    simp [exec, hx, except_ok_bind, htarget]

/-- A statement that runs another function to its end. -/
theorem goes_of_finishes (hr : u.Finishes g frame'' statements'' r)
    (h : ∀ n, u.exec n g frame'' statements'' = .ok r →
      u.exec (n + 1) f frame statements = u.exec n f frame' statements') :
    u.Goes f frame statements frame' statements' := by
  rintro r' ⟨bound', hr'⟩
  obtain ⟨bound, hr⟩ := hr
  refine ⟨max bound bound' + 1, fun fuel hfuel => ?_⟩
  obtain ⟨n, rfl⟩ : ∃ n, fuel = n + 1 := ⟨fuel - 1, by omega⟩
  rw [h n (hr n (by omega))]
  exact hr' n (by omega)

theorem goes_call (harea : CFunction.fill frame size args = .ok area)
    (hg : u.function? callee = some g) (hr : u.Finishes g (g.enter area frame.statics) g.body r) :
    u.Goes f frame (.call none callee size args :: rest) { frame with statics := r.statics } rest :=
  goes_of_finishes hr fun n hn => by
    simp [exec, harea, hg, except_ok_bind, hn]

theorem goes_call_result
    (harea : CFunction.fill frame size args = .ok area) (hg : u.function? callee = some g)
    (hr : u.Finishes g (g.enter area frame.statics) g.body r) (hx : r.value = some x)
    (hassign : f.assign { frame with statics := r.statics } place x = .ok frame') :
    u.Goes f frame (.call (some place) callee size args :: rest) frame' rest :=
  goes_of_finishes hr fun n hn => by
    simp [exec, harea, hg, except_ok_bind, hn, hx, hassign]

theorem finishes_of_exec (h : ∀ n, u.exec (n + 1) f frame statements = .ok r) :
    u.Finishes f frame statements r := by
  refine ⟨1, fun fuel hfuel => ?_⟩
  obtain ⟨n, rfl⟩ : ∃ n, fuel = n + 1 := ⟨fuel - 1, by omega⟩
  exact h n

theorem returned_none (hret : f.ret = none) :
    (f.returned none >>= fun value => pure (CResult.mk value frame.args frame.statics)) =
      .ok ⟨none, frame.args, frame.statics⟩ := by
  unfold CFunction.returned
  rw [hret]
  rfl

theorem finishes_end (hret : f.ret = none) :
    u.Finishes f frame [] ⟨none, frame.args, frame.statics⟩ :=
  finishes_of_exec fun _ => returned_none hret

theorem finishes_ret (hret : f.ret = none) :
    u.Finishes f frame (.ret none :: rest) ⟨none, frame.args, frame.statics⟩ :=
  finishes_of_exec fun _ => returned_none hret

theorem finishes_ret_value {x : Int32} (hret : f.ret = some .i4)
    (hx : value.eval frame = .ok (.int x)) :
    u.Finishes f frame (.ret (some value) :: rest) ⟨some (.int x), frame.args, frame.statics⟩ :=
  finishes_of_exec fun n => by
    have hvalue : f.returned (some (.int x)) = .ok (some (.int x)) := by
      unfold CFunction.returned
      rw [hret]
      exact congrArg (some <$> ·) (CNumber.cast_int_i4 x)
    show (value.eval frame >>= fun x => f.returned (some x) >>= fun value =>
      pure (CResult.mk value frame.args frame.statics)) = _
    rw [hx, except_ok_bind, hvalue]
    rfl

end

end CUnit

end DeviceCode
