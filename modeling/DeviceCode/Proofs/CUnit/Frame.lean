import DeviceCode.CUnit.Execution
import DeviceCode.Proofs.CUnit.Arithmetic
import DeviceCode.Proofs.CUnit.Operand
import DeviceCode.Proofs.Machine.IntegerSlots

/-!
# Frames of C functions

An expression depends on the places that it reads and on nothing else (`CExpr.eval_congr`).
`CFrame.put` writes an integer to a place: the place has it then (`CFrame.get_put`), and places that
have no byte in common with it have what they had (`CFrame.get_put_ne`).
-/

namespace DeviceCode

open SlotArea

open List

variable {type : CType} {offset : UInt16} {depth : Nat} {place : CPlace} {area : SlotArea}
  {bytes : List UInt8} {position start : Nat} {vars : List (CPlace × CNumber)}

/-! ## Expressions -/

namespace CExpr

variable {f f' : CFrame}

mutual

/-- **An expression depends on the places that it reads.** -/
theorem eval_congr : ∀ {e : CExpr}, (∀ place ∈ e.places, f'.get place = f.get place) →
    e.eval f' = e.eval f
  | .read place, h => by
    rw [eval, eval, h place (by simp [places])]
  | .int _, _ | .float _, _ | .null, _ => by rw [eval, eval]
  | .paren e, h => by
    rw [eval, eval]
    exact eval_congr (e := e) h
  | .cast type e, h | .unary op e, h => by
    rw [eval, eval, eval_congr (e := e) h]
  | .binary op a b, h => by
    simp only [places, mem_append] at h
    rw [eval, eval, eval_congr fun place hp => h place (.inl hp),
      eval_congr fun place hp => h place (.inr hp)]
  | .call callee args, h => by
    rw [eval, eval, evalAll_congr h]

theorem evalAll_congr : ∀ {es : List CExpr}, (∀ place ∈ placesOf es, f'.get place = f.get place) →
    evalAll f' es = evalAll f es
  | [], _ => by rw [evalAll, evalAll]
  | e :: es, h => by
    simp only [placesOf, mem_append] at h
    rw [evalAll, evalAll, eval_congr fun place hp => h place (.inl hp),
      evalAll_congr fun place hp => h place (.inr hp)]

end

end CExpr

/-! ## Places -/

namespace CFrame

/-- The frame with an integer in a place. -/
def put (f : CFrame) (place : CPlace) (x : Int32) : CFrame :=
  match place with
  | .argument _ offset => { f with args := f.args.putInt offset.toNat x }
  | .static _ offset => { f with statics := f.statics.putInt offset.toNat x }
  | .localVar _ | .temporary _ _ =>
    { f with vars := (place, .int x) :: f.vars.filter (·.1 ≠ place) }

/-- The place is one for a signed integer, and it lies in its area. -/
def Fits (f : CFrame) : CPlace → Prop
  | .argument type offset => type = .i4 ∧ offset.toNat + 4 ≤ f.args.size
  | .static type offset => type = .i4 ∧ offset.toNat + 4 ≤ f.statics.size
  | .localVar _ => True
  | .temporary _ type => type = .i4

end CFrame

/-- The places have no byte in common. -/
def CPlace.Disjoint : CPlace → CPlace → Prop
  | .argument type a, .argument type' b => a.toNat + type.size ≤ b.toNat ∨ b.toNat + type'.size ≤ a.toNat
  | .static type a, .static type' b => a.toNat + type.size ≤ b.toNat ∨ b.toNat + type'.size ≤ a.toNat
  | p, q => p ≠ q

theorem CPlace.disjoint_temporary (h : place ≠ .temporary depth type) :
    Disjoint (.temporary depth type) place := by
  cases place <;> exact h.symm

theorem SlotArea.byteAt_write_outside {i : Nat} (h : i < start ∨ start + bytes.length ≤ i) :
    (area.write start bytes).byteAt i = area.byteAt i := by
  unfold byteAt
  rw [getElem?_write_outside h]

theorem CType.load_write (h : position + type.size ≤ start ∨ start + bytes.length ≤ position) :
    type.load (area.write start bytes) position = type.load area position := by
  have hbyte : ∀ k < type.size,
      (area.write start bytes).byteAt (position + k) = area.byteAt (position + k) :=
    fun k hk => byteAt_write_outside (by omega)
  have hfirst := hbyte 0 (by cases type <;> decide)
  rw [Nat.add_zero] at hfirst
  cases type with
  | u1 | i1 => simp [load, hfirst]
  | u2 | i2 => simp [load, wordAt, hfirst, hbyte 1 (by decide)]
  | i4 | u4 | r4 | ptr =>
    simp [load, doubleAt, hfirst, hbyte 1 (by decide), hbyte 2 (by decide),
      hbyte 3 (by decide)]

namespace CFrame

variable {f : CFrame} {other : CPlace}

theorem get_inArea_write (h : position + type.size ≤ start ∨ start + bytes.length ≤ position) :
    get.inArea place (area.write start bytes) type position = get.inArea place area type position := by
  unfold get.inArea
  rw [size_write, CType.load_write h]

theorem get_of_vars
    (h : vars.lookup place = f.vars.lookup place) : { f with vars }.get place = f.get place := by
  cases place with
  | argument _ _ | static _ _ => rfl
  | localVar _ | temporary _ _ => simp [get, h]

theorem fits_temporary (f : CFrame) (depth : Nat) : f.Fits (.temporary depth .i4) := rfl

theorem set_ok (h : f.Fits place) (x : Int32) : f.set place .i4 (.int x) = .ok (f.put place x) := by
  cases place with
  | argument type offset | static type offset =>
    refine except_bind_ok.2 ⟨_, rfl, except_bind_ok.2 ⟨_, if_pos (by exact h.2), ?_⟩⟩
    rw [put, putInt]
    rfl
  | localVar index => rfl
  | temporary depth type => rfl

theorem get_argument (h : f.Fits (.argument .i4 offset)) :
    f.get (.argument .i4 offset) = .ok (.int (f.args.intAt offset.toNat)) := by
  rw [intAt]
  exact if_pos h.2

theorem get_static (h : f.Fits (.static .i4 offset)) :
    f.get (.static .i4 offset) = .ok (.int (f.statics.intAt offset.toNat)) := by
  rw [intAt]
  exact if_pos h.2

section
variable (f : CFrame) (type : CType) (offset : UInt16) (x : Int32)

@[simp] theorem put_argument_args :
    (f.put (.argument type offset) x).args = f.args.putInt offset.toNat x := rfl

@[simp] theorem put_static_statics :
    (f.put (.static type offset) x).statics = f.statics.putInt offset.toNat x := rfl

end

theorem fits_put (h : f.Fits place) (x : Int32) : (f.put place x).Fits place := by
  cases place with
  | argument _ _ | static _ _ => exact ⟨h.1, by simpa using h.2⟩
  | localVar _ | temporary _ _ => exact h

theorem get_put (h : f.Fits place) (x : Int32) : (f.put place x).get place = .ok (.int x) := by
  have hput := fits_put h x
  cases place with
  | argument type offset =>
    obtain ⟨rfl, hsize⟩ := h
    rw [get_argument hput, put_argument_args, intAt_putInt hsize]
  | static type offset =>
    obtain ⟨rfl, hsize⟩ := h
    rw [get_static hput, put_static_statics, intAt_putInt hsize]
  | localVar index | temporary depth type => simp [get, put]

theorem lookup_put (hne : place ≠ other) (x : CNumber) :
    ((place, x) :: vars.filter (·.1 ≠ place)).lookup other = vars.lookup other := by
  have filtered : (vars.filter (·.1 ≠ place)).lookup other = vars.lookup other := by
    induction vars with
    | nil => rfl
    | cons v vars ih =>
      rw [filter_cons]
      by_cases hv : v.1 = place
      · rw [if_neg (by simp [hv]), lookup_cons,
          beq_false_of_ne (by rw [hv]; exact Ne.symm hne)]
        exact ih
      · rw [if_pos (by simp [hv]), lookup_cons, lookup_cons, ih]
  rw [lookup_cons, beq_false_of_ne (Ne.symm hne)]
  exact filtered

/-- **Places that have no byte in common with it** have what they had. -/
theorem get_put_ne (h : f.Fits place) (hd : place.Disjoint other) (x : Int32) :
    (f.put place x).get other = f.get other := by
  cases place with
  | argument type offset =>
    cases other with
    | argument _ _ =>
      obtain ⟨rfl, -⟩ := h
      show get.inArea _ (f.args.putInt offset.toNat x) _ _ = _
      rw [putInt]
      exact get_inArea_write hd.symm
    | _ => rfl
  | static type offset =>
    cases other with
    | static _ _ =>
      obtain ⟨rfl, -⟩ := h
      show get.inArea _ (f.statics.putInt offset.toNat x) _ _ = _
      rw [putInt]
      exact get_inArea_write hd.symm
    | _ => rfl
  | localVar _ | temporary _ _ =>
    refine get_of_vars (lookup_put ?_ _)
    cases other <;> exact hd

theorem get_put_temporary_ne (hne : place ≠ .temporary depth .i4) (x : Int32) :
    (f.put (.temporary depth .i4) x).get place = f.get place :=
  get_put_ne (f.fits_temporary depth) (CPlace.disjoint_temporary hne) x

end CFrame

/-! ## Assignments -/

namespace CFunction

theorem assign_ok {f : CFunction} {frame : CFrame} {place : CPlace}
    (htype : f.typeOf? place = some .i4) (hfits : frame.Fits place) (x : Int32) :
    f.assign frame place (.int x) = .ok (frame.put place x) := by
  unfold assign
  rw [htype]
  exact CFrame.set_ok hfits x

theorem typeOf?_temporary {f : CFunction} (h : (depth, .i4) ∈ f.temporaries) :
    f.typeOf? (.temporary depth .i4) = some .i4 :=
  if_pos (contains_iff_mem.2 h)

end CFunction

end DeviceCode
