import DeviceCode.Proofs.CUnit.Frame
import Mathlib.Data.List.Nodup

/-!
# What statements change

`CUnit.Executes u f frame st frame'`: the statement, which does not return, makes one frame of the other.
Main statements: an assignment changes no place that is disjoint from the one that it assigns
(`CFunction.get_assign_ne`), and moves that happen at once change their temporaries and nothing else
(`CFunction.moveAll_ok`).
-/

namespace DeviceCode

open SlotArea

open CFrame

open List

variable {type : CType} {bytes : List UInt8} {area : SlotArea} {offset depth : Nat} {place : CPlace}

/-! ## Conversions -/

theorem CNumber.cast_of_cast {x y : CNumber} (htype : type.stackClass = type)
    (h : x.cast type = .ok y) : y.cast type = .ok y := by
  cases type with
  | i4 =>
    cases hw : x.word (-2147483648) 2147483647 with
    | error e => simp [cast, hw] at h
    | ok w =>
      have h : CNumber.int w.toInt32 = y := by simpa [cast, hw] using h
      subst h
      exact cast_int_i4 _
  | ptr =>
    cases hw : x.word 0 4294967295 with
    | error e => simp [cast, hw] at h
    | ok w =>
      have h : CNumber.uint w = y := by simpa [cast, hw] using h
      subst h
      rfl
  | r4 =>
    cases h
    rfl
  | _ => cases htype

/-! ## Assignments -/

theorem CType.length_bytes (type : CType) (x : CNumber) : (type.bytes x).length = type.size := by
  cases type <;> rfl

theorem CFrame.set_inArea_ok {area' : SlotArea} (h : set.inArea place area offset bytes = .ok area') :
    area' = area.write offset bytes := by
  unfold set.inArea at h
  split at h
  · exact (Except.ok.inj h).symm
  · cases h

/-- The frames have the same areas, and the same in all places but those. -/
structure CFrame.SameBut (changed : CPlace → Prop) (cf cf' : CFrame) : Prop where
  args : cf'.args = cf.args
  statics : cf'.statics = cf.statics
  places : ∀ place, ¬ changed place → cf'.get place = cf.get place

section
variable {changed changed' both : CPlace → Prop} {cf cf₁ cf' : CFrame}

theorem CFrame.SameBut.mono (h : SameBut changed cf cf') (hle : ∀ place, changed place → both place) :
    SameBut both cf cf' :=
  ⟨h.args, h.statics, fun place hn => h.places place fun hc => hn (hle place hc)⟩

theorem CFrame.SameBut.trans (h : SameBut changed cf cf₁) (h' : SameBut changed' cf₁ cf')
    (hle : ∀ place, changed place → both place) (hle' : ∀ place, changed' place → both place) :
    SameBut both cf cf' where
  args := h'.args.trans h.args
  statics := h'.statics.trans h.statics
  places place hn := ((h'.mono hle').places place hn).trans ((h.mono hle).places place hn)

end

namespace CFunction

variable {f : CFunction} {cf cf' : CFrame} {x : CNumber}

/-- **An assignment changes no place that is disjoint** from the one that it assigns. -/
theorem get_assign_ne {other : CPlace} (h : f.assign cf place x = .ok cf')
    (hd : place.Disjoint other) : cf'.get other = cf.get other := by
  unfold assign at h
  cases place with
  | argument type offset =>
    obtain ⟨y, -, h⟩ := except_bind_ok.1 h
    obtain ⟨area, harea, h⟩ := except_bind_ok.1 h
    obtain rfl := set_inArea_ok harea
    cases h
    cases other with
    | argument _ _ => exact get_inArea_write (by rw [CType.length_bytes]; exact hd.symm)
    | _ => rfl
  | static type offset =>
    obtain ⟨y, -, h⟩ := except_bind_ok.1 h
    obtain ⟨area, harea, h⟩ := except_bind_ok.1 h
    obtain rfl := set_inArea_ok harea
    cases h
    cases other with
    | static _ _ => exact get_inArea_write (by rw [CType.length_bytes]; exact hd.symm)
    | _ => rfl
  | localVar index | temporary depth type =>
    split at h
    · obtain ⟨y, -, h⟩ := except_bind_ok.1 h
      cases h
      refine get_of_vars (lookup_put ?_ _)
      cases other <;> exact hd
    · cases h

theorem assign_temporary_ok (h : f.assign cf (.temporary depth type) x = .ok cf') :
    cf'.get (.temporary depth type) = x.cast type ∧ SameBut (· = .temporary depth type) cf cf' := by
  unfold assign typeOf? at h
  dsimp only at h
  split at h
  · rename_i type' htype
    split at htype
    · cases htype
      obtain ⟨y, hy, h⟩ := except_bind_ok.1 h
      cases h
      rw [hy]
      exact ⟨by simp [CFrame.get], rfl, rfl, fun place hne => get_of_vars (lookup_put (Ne.symm hne) y)⟩
    · cases htype
  · cases h

theorem assignAll_ok : ∀ {items : List (CMove × CNumber)} {cf cf' : CFrame},
    items.foldlM (fun frame (m, x) => f.assign frame (.temporary m.depth m.type) x) cf = .ok cf' →
    (items.map (·.1.depth)).Nodup →
    (∀ item ∈ items, cf'.get (.temporary item.1.depth item.1.type) = item.2.cast item.1.type) ∧
      SameBut (fun place => ∃ item ∈ items, place = .temporary item.1.depth item.1.type) cf cf'
  | [], cf, cf', h, _ => by
    cases h
    exact ⟨by simp, rfl, rfl, fun _ _ => rfl⟩
  | (m, x) :: items, cf, cf', h, hnodup => by
    obtain ⟨cf₁, hassign, h⟩ := except_bind_ok.1 h
    rw [map_cons, nodup_cons] at hnodup
    obtain ⟨hgiven, hfirst⟩ := assign_temporary_ok hassign
    obtain ⟨hmoved, hothers⟩ := assignAll_ok h hnodup.2
    refine ⟨fun item hitem => ?_, hfirst.trans hothers (fun place hplace => ?_) fun place hplace => ?_⟩
    · rcases mem_cons.1 hitem with rfl | hitem
      · refine (hothers.places _ ?_).trans hgiven
        rintro ⟨item, hitem, heq⟩
        exact hnodup.1 (mem_map.2 ⟨item, hitem, (CPlace.temporary.inj heq).1.symm⟩)
      · exact hmoved item hitem
    · exact ⟨(m, x), mem_cons_self, hplace⟩
    · obtain ⟨item, hitem, heq⟩ := hplace
      exact ⟨item, mem_cons_of_mem _ hitem, heq⟩

/-- **Moves that happen at once** change their temporaries and nothing else. -/
theorem moveAll_ok {moves : List CMove} (h : f.moveAll cf moves = .ok cf')
    (hnodup : (moves.map (·.depth)).Nodup) (hclass : ∀ m ∈ moves, m.type.stackClass = m.type) :
    (∀ m ∈ moves, cf'.get (.temporary m.depth m.type) = (m.value.eval cf >>= (·.cast m.type))) ∧
      SameBut (fun place => ∃ m ∈ moves, place = .temporary m.depth m.type) cf cf' := by
  obtain ⟨values, hvalues, h⟩ := except_bind_ok.1 h
  rw [except_mapM_ok] at hvalues
  have hfst : (moves.zip values).map (·.1) = moves := map_fst_zip (Nat.le_of_eq hvalues.length_eq)
  obtain ⟨hmoved, hothers⟩ := assignAll_ok h (by
    rw [← hfst, map_map] at hnodup
    exact hnodup)
  refine ⟨fun m hm => ?_, hothers.mono ?_⟩
  · rw [← hfst] at hm
    obtain ⟨item, hitem, rfl⟩ := mem_map.1 hm
    have hvalue := forall₂_iff_zip.1 hvalues |>.2 hitem
    rw [hmoved item hitem, hvalue]
    obtain ⟨y, -, hy⟩ := except_bind_ok.1 hvalue
    exact CNumber.cast_of_cast (hclass _ (of_mem_zip hitem).1) hy
  · rintro place ⟨item, hitem, heq⟩
    exact ⟨item.1, (of_mem_zip hitem).1, heq⟩

end CFunction

/-! ## Statements -/

namespace CUnit

/-- The statement makes one frame of the other. A statement that returns does not. -/
inductive Executes (u : CUnit) (f : CFunction) (cf : CFrame) : CStmt → CFrame → Prop
  | label (index : Nat) : Executes u f cf (.label index) cf
  | assign {place : CPlace} {value : CExpr} {x : CNumber} {cf' : CFrame}
    (evaluated : value.eval cf = .ok x) (assigned : f.assign cf place x = .ok cf') :
    Executes u f cf (.assign place value) cf'
  | moveAll {moves : List CMove} {cf' : CFrame} (moved : f.moveAll cf moves = .ok cf') :
    Executes u f cf (.moveAll moves) cf'
  | goto (target : Nat) : Executes u f cf (.goto target) cf
  | gotoIf (condition : CExpr) (target : Nat) : Executes u f cf (.gotoIf condition target) cf
  | switch (value : CExpr) (targets : List Nat) : Executes u f cf (.switch value targets) cf
  | call {callee size fuel : Nat} {args : List CArgument} {area : SlotArea} {g : CFunction}
    {r : CResult} (filled : CFunction.fill cf size args = .ok area)
    (known : u.function? callee = some g)
    (ran : u.exec fuel g (g.enter area cf.statics) g.body = .ok r) :
    Executes u f cf (.call none callee size args) { cf with statics := r.statics }
  | callResult {callee size fuel : Nat} {args : List CArgument} {area : SlotArea} {g : CFunction}
    {r : CResult} {place : CPlace} {x : CNumber} {cf' : CFrame}
    (filled : CFunction.fill cf size args = .ok area) (known : u.function? callee = some g)
    (ran : u.exec fuel g (g.enter area cf.statics) g.body = .ok r) (returned : r.value = some x)
    (assigned : f.assign { cf with statics := r.statics } place x = .ok cf') :
    Executes u f cf (.call (some place) callee size args) cf'

/-- The statements do so one after the other. -/
inductive ExecutesAll (u : CUnit) (f : CFunction) : CFrame → List CStmt → CFrame → Prop
  | nil (cf : CFrame) : ExecutesAll u f cf [] cf
  | cons {cf cf₁ cf' : CFrame} {st : CStmt} {rest : List CStmt} (first : u.Executes f cf st cf₁)
    (others : ExecutesAll u f cf₁ rest cf') : ExecutesAll u f cf (st :: rest) cf'

section
variable {u : CUnit} {f : CFunction} {cf cf' : CFrame} {st : CStmt}

theorem executesAll_append {first second : List CStmt} :
    u.ExecutesAll f cf (first ++ second) cf' ↔
      ∃ cf₁, u.ExecutesAll f cf first cf₁ ∧ u.ExecutesAll f cf₁ second cf' := by
  induction first generalizing cf with
  | nil =>
    refine ⟨fun h => ⟨cf, .nil cf, h⟩, ?_⟩
    rintro ⟨cf₁, hfirst, h⟩
    cases hfirst
    exact h
  | cons st first ih =>
    constructor
    · intro h
      cases h with
      | cons hst h =>
        obtain ⟨cf₁, hfirst, hsecond⟩ := ih.1 h
        exact ⟨cf₁, .cons hst hfirst, hsecond⟩
    · rintro ⟨cf₁, hfirst, hsecond⟩
      cases hfirst with
      | cons hst h => exact .cons hst (ih.2 ⟨cf₁, h, hsecond⟩)

theorem executesAll_singleton :
    u.ExecutesAll f cf [st] cf' ↔ u.Executes f cf st cf' := by
  constructor
  · rintro (_ | ⟨hst, _ | _⟩)
    exact hst
  · exact fun h => .cons h (.nil cf')

/-- **A run that gets past a statement** goes on in the frame that the statement makes. -/
theorem executes_of_exec {fuel : Nat} {rest : List CStmt} {r : CResult}
    (h : u.exec (fuel + 1) f cf (st :: rest) = .ok r) :
    (∃ value, st = .ret value) ∨
      ∃ cf' rest', u.Executes f cf st cf' ∧ u.exec fuel f cf' rest' = .ok r := by
  cases st with
  | label index => exact .inr ⟨cf, rest, .label index, h⟩
  | ret value => exact .inl ⟨value, rfl⟩
  | assign place value =>
    obtain ⟨x, hx, h⟩ := except_bind_ok.1 h
    obtain ⟨cf', hassign, h⟩ := except_bind_ok.1 h
    exact .inr ⟨cf', rest, .assign hx hassign, h⟩
  | moveAll moves =>
    obtain ⟨cf', hmoves, h⟩ := except_bind_ok.1 h
    exact .inr ⟨cf', rest, .moveAll hmoves, h⟩
  | goto target =>
    obtain ⟨rest', -, h⟩ := except_bind_ok.1 h
    exact .inr ⟨cf, rest', .goto target, h⟩
  | gotoIf condition target =>
    obtain ⟨x, -, h⟩ := except_bind_ok.1 h
    split at h
    · obtain ⟨rest', -, h⟩ := except_bind_ok.1 h
      exact .inr ⟨cf, rest', .gotoIf condition target, h⟩
    · exact .inr ⟨cf, rest, .gotoIf condition target, h⟩
  | switch value targets =>
    obtain ⟨x, -, h⟩ := except_bind_ok.1 h
    obtain ⟨next, -, h⟩ := except_bind_ok.1 h
    cases next with
    | some target =>
      obtain ⟨rest', -, h⟩ := except_bind_ok.1 h
      exact .inr ⟨cf, rest', .switch value targets, h⟩
    | none => exact .inr ⟨cf, rest, .switch value targets, h⟩
  | call result callee size args =>
    obtain ⟨area, hfill, h⟩ := except_bind_ok.1 h
    split at h
    · cases h
    · rename_i g hg
      obtain ⟨r', hr', h⟩ := except_bind_ok.1 h
      cases result with
      | none => exact .inr ⟨_, rest, .call hfill hg hr', h⟩
      | some place =>
        cases hx : r'.value with
        | none =>
          simp only [hx] at h
          cases h
        | some x =>
          simp only [hx] at h
          obtain ⟨cf', hassign, h⟩ := except_bind_ok.1 h
          exact .inr ⟨cf', rest, .callResult hfill hg hr' hx hassign, h⟩

end

end CUnit

end DeviceCode
