import DeviceCode.CUnit.Emitter
import DeviceCode.Proofs.Outcome

/-!
# Operands and what they read

`CExpr.places` are the places that occur in an expression, `CExpr.temporaries` the temporaries among
them. An operand is `COperand.Regular` if it reads the temporaries that occur in it, and is a temporary
itself if it looks like one. Loaded operands are
regular, and so is what is computed from regular ones (`ComputedFrom.regular`).

Whether an operation on operands is possible, and of which type its result is, depends on the types of
the operands only (`typed_neg`, `typed₂_binary` and the like).
-/

namespace DeviceCode

open CExpr

open List

variable {place : CPlace} {v : CVar} {parts : List COperand} {t : Nat × CType}

@[simp] theorem CType.stackClass_stackClass (t : CType) : t.stackClass.stackClass = t.stackClass := by
  cases t <;> rfl

/-! ## Places that occur -/

def CPlace.temporary? : CPlace → Option (Nat × CType)
  | .temporary depth type => some (depth, type)
  | _ => none

theorem CPlace.temporary?_eq_some :
    place.temporary? = some t ↔ place = .temporary t.1 t.2 := by
  cases place with
  | temporary depth type =>
    simp only [temporary?, Option.some.injEq, CPlace.temporary.injEq]
    exact Prod.ext_iff
  | _ => simp [temporary?]

mutual

/-- The places that an expression reads. -/
def CExpr.places : CExpr → List CPlace
  | .read place => [place]
  | .int _ | .float _ | .null => []
  | .paren e | .cast _ e | .unary _ e => e.places
  | .binary _ a b => a.places ++ b.places
  | .call _ args => CExpr.placesOf args

def CExpr.placesOf : List CExpr → List CPlace
  | [] => []
  | e :: es => e.places ++ CExpr.placesOf es

end

theorem CExpr.mem_placesOf : ∀ {es : List CExpr},
    place ∈ placesOf es ↔ ∃ e ∈ es, place ∈ e.places
  | [] => by simp [placesOf]
  | e :: es => by simp [placesOf, mem_placesOf]

/-- The temporaries that occur in an expression. -/
def CExpr.temporaries (e : CExpr) : List (Nat × CType) := e.places.filterMap (·.temporary?)

theorem CExpr.mem_temporaries {e : CExpr} :
    t ∈ e.temporaries ↔ .temporary t.1 t.2 ∈ e.places := by
  simp [temporaries, mem_filterMap, CPlace.temporary?_eq_some]

namespace CStmt

/-- The temporaries that occur in a statement. -/
def temporaries : CStmt → List (Nat × CType)
  | .label _ | .goto _ => []
  | .assign place value => place.temporary?.toList ++ value.temporaries
  | .moveAll moves => moves.flatMap fun m => (m.depth, m.type) :: m.value.temporaries
  | .ret value => value.toList.flatMap (·.temporaries)
  | .gotoIf condition _ => condition.temporaries
  | .switch value _ => value.temporaries
  | .call result _ _ args =>
    result.toList.flatMap (·.temporary?.toList) ++ args.flatMap (·.value.temporaries)

/-- The labels that a statement goes to. -/
def targets : CStmt → List Nat
  | .goto target | .gotoIf _ target => [target]
  | .switch _ targets => targets
  | _ => []

/-- The method that a statement calls. -/
def callee? : CStmt → Option Nat
  | .call _ callee _ _ => some callee
  | _ => none

/-- Control passes from the statement to the next one. -/
structure IsPlain (st : CStmt) : Prop where
  label : ∀ i, st ≠ .label i
  targets : st.targets = []
  callee : st.callee? = none

theorem isPlain_assign (place : CPlace) (value : CExpr) : (assign place value).IsPlain :=
  ⟨by simp, rfl, rfl⟩

theorem isPlain_moveAll (moves : List CMove) : (moveAll moves).IsPlain := ⟨by simp, rfl, rfl⟩

end CStmt

namespace COperand

@[simp] theorem type_temporary (d : Nat) (t : CType) : (temporary d t).type = t.stackClass := rfl

@[simp] theorem stackClass_type (o : COperand) : o.type.stackClass = o.type :=
  CType.stackClass_stackClass o.native

@[simp] theorem places_signed (o : COperand) : o.signed.places = o.expr.places := by
  unfold signed
  split <;> simp [places]

@[simp] theorem places_unsigned (o : COperand) : o.unsigned.places = o.expr.places := by
  unfold unsigned
  split <;> simp [places]

/-! ## Regular operands -/

/-- The operand reads the temporaries that occur in it. -/
structure Regular (o : COperand) : Prop where
  /-- An operand that looks like a temporary is one. -/
  bare : ∀ d t, o.expr = .read (.temporary d t) → o = temporary d t
  simple : o.simple = true → ∀ d t, .temporary d t ∈ o.reads → o = temporary d t
  classes : ∀ d t, .temporary d t ∈ o.reads → t.stackClass = t
  mentions : ∀ t ∈ o.expr.temporaries, .temporary t.1 t.2 ∈ o.reads

theorem reads_temporary {d : Nat} {t : CType} (h : v ∈ (temporary d t).reads) :
    v = .temporary d t := mem_singleton.1 h

theorem regular_temporary (d : Nat) {t : CType} (ht : t.stackClass = t) :
    (temporary d t).Regular where
  bare d' t' h := by
    cases h
    rfl
  simple _ d' t' h := by
    cases reads_temporary h
    rfl
  classes d' t' h := by
    cases reads_temporary h
    exact ht
  mentions p hp := by
    obtain rfl : p = (d, t) := by
      simpa [temporary, ofPlace, temporaries, places, CPlace.temporary?] using hp
    exact mem_singleton.2 rfl

theorem regular_ofPlace (native : CType) (hplace : place.temporary? = none)
    (hv : ∀ d t, v ≠ .temporary d t) :
    (ofPlace place native v).Regular where
  bare d t h := by
    cases h
    cases hplace
  simple _ d t h := absurd (mem_singleton.1 h).symm (hv d t)
  classes d t h := absurd (mem_singleton.1 h).symm (hv d t)
  mentions p hp := by simp [ofPlace, temporaries, places, hplace] at hp

theorem regular_literal {expr : CExpr} (native : CType) (hexpr : expr.temporaries = [])
    (hbare : ∀ place, expr ≠ .read place) : (literal expr native).Regular where
  bare d t h := absurd h (hbare _)
  simple _ d t h := absurd h not_mem_nil
  classes d t h := absurd h not_mem_nil
  mentions p hp := by
    rw [literal, hexpr] at hp
    cases hp

/-! ## Compound operands -/

theorem mem_foldl_insert : ∀ {new known : List CVar},
    v ∈ new.foldl (fun vs v => if vs.contains v then vs else vs ++ [v]) known ↔
      v ∈ known ∨ v ∈ new
  | [], known => by simp
  | w :: new, known => by
    rw [foldl_cons, mem_foldl_insert, mem_cons]
    by_cases hw : known.contains w = true
    · rw [if_pos hw]
      have hmem : w ∈ known := contains_iff_mem.1 hw
      constructor
      · rintro (h | h)
        · exact .inl h
        · exact .inr (.inr h)
      · rintro (h | rfl | h)
        · exact .inl h
        · exact .inl hmem
        · exact .inr h
    · rw [if_neg hw, mem_append, mem_singleton, or_assoc]

theorem mem_readsOf : v ∈ readsOf parts ↔ ∃ o ∈ parts, v ∈ o.reads := by
  have start : ∀ (parts : List COperand) (known : List CVar),
      v ∈ parts.foldl (fun vs o =>
        o.reads.foldl (fun vs v => if vs.contains v then vs else vs ++ [v]) vs) known ↔
        v ∈ known ∨ ∃ o ∈ parts, v ∈ o.reads := by
    intro parts
    induction parts with
    | nil => simp
    | cons o parts ih =>
      intro known
      rw [foldl_cons, ih, mem_foldl_insert, or_assoc]
      simp
  rw [readsOf, start]
  simp

/-- The operand is computed from the parts. -/
def ComputedFrom (parts : List COperand) (o : COperand) : Prop :=
  ∃ expr native, o = compound expr native parts ∧ (∀ place, expr ≠ .read place) ∧
    ∀ place ∈ expr.places, ∃ p ∈ parts, place ∈ p.expr.places

theorem ComputedFrom.reads {o : COperand} (h : ComputedFrom parts o) (hv : v ∈ o.reads) :
    ∃ p ∈ parts, v ∈ p.reads := by
  obtain ⟨expr, native, rfl, -⟩ := h
  exact mem_readsOf.1 hv

/-- **What is computed from regular operands is regular.** -/
theorem ComputedFrom.regular {o : COperand} (h : ComputedFrom parts o)
    (hparts : ∀ p ∈ parts, p.Regular) : o.Regular := by
  obtain ⟨expr, native, rfl, hbare, hmentions⟩ := h
  refine ⟨fun d t ht => absurd ht (hbare _), fun h => (by cases h), fun d t ht => ?_, fun t ht => ?_⟩
  · obtain ⟨p, hp, hr⟩ := mem_readsOf.1 ht
    exact (hparts p hp).classes d t hr
  · obtain ⟨p, hp, hr⟩ := hmentions _ (mem_temporaries.1 ht)
    exact mem_readsOf.2 ⟨p, hp, (hparts p hp).mentions t (mem_temporaries.2 hr)⟩

section
variable {a b o : COperand}

theorem computed_binary {op : BinaryOp} (h : binary op a b = .ok o) : ComputedFrom [a, b] o := by
  unfold binary at h
  split at h
  · cases h
  · split at h
    · cases hf : floatBinary op a b with
      | error e =>
        rw [hf] at h
        cases h
      | ok expr =>
        rw [hf] at h
        cases h
        refine ⟨expr, .r4, rfl, ?_⟩
        cases op <;> cases hf <;> simp [places, placesOf]
    · cases h
      refine ⟨_, _, rfl, ?_⟩
      cases op <;> simp [intBinary, shiftAmount, places, placesOf]

theorem computed_compare {cmp : Comparison} {isUnsigned : Bool}
    (h : compare cmp isUnsigned a b = .ok o) : ComputedFrom [a, b] o := by
  unfold compare at h
  split at h
  · cases h
  · cases h
    refine ⟨_, _, rfl, ?_⟩
    unfold compareExpr
    dsimp only
    split
    · simp [places]
    · split
      · simp [places]
      · split
        · simp [places]
        · split <;> simp [places]

theorem computed_neg (h : neg a = .ok o) : ComputedFrom [a] o := by
  unfold neg at h
  split at h
  · cases h
  · split at h <;> cases h <;>
      exact ⟨_, _, rfl, by simp [places, placesOf]⟩

theorem computed_complement (h : complement a = .ok o) : ComputedFrom [a] o := by
  unfold complement at h
  split at h <;> cases h
  exact ⟨_, _, rfl, by simp [places]⟩

theorem computed_convert {type : CType} (h : convert type a = .ok o) : ComputedFrom [a] o := by
  unfold convert at h
  split at h <;> cases h
  exact ⟨_, _, rfl, by simp [places]⟩

theorem computed_convertUnsigned (h : convertUnsigned a = .ok o) : ComputedFrom [a] o := by
  unfold convertUnsigned at h
  split at h <;> cases h
  exact ⟨_, _, rfl, by simp [places]⟩

theorem computed_library (symbol : String) (native : CType) (parts : List COperand) :
    ComputedFrom parts
      (compound (.call (.library symbol) (parts.map (·.expr))) native parts) := by
  refine ⟨_, _, rfl, by simp, fun place hplace => ?_⟩
  rw [places, mem_placesOf] at hplace
  obtain ⟨e, he, hplace⟩ := hplace
  obtain ⟨p, hp, rfl⟩ := mem_map.1 he
  exact ⟨p, hp, hplace⟩

end

/-! ## Types decide -/

/-- The type of the operand decides whether there is a result, and of which type. -/
def Typed (f : COperand → Except CObstacle COperand) : Prop :=
  ∀ a a' o, a'.type = a.type → f a = .ok o → ∃ o', f a' = .ok o' ∧ o'.type = o.type

/-- The types of the two operands decide. -/
def Typed₂ (f : COperand → COperand → Except CObstacle COperand) : Prop :=
  ∀ a a' b b' o, a'.type = a.type → b'.type = b.type → f a b = .ok o →
    ∃ o', f a' b' = .ok o' ∧ o'.type = o.type

theorem typed₂_binary (op : BinaryOp) : Typed₂ (binary op) := by
  intro a a' b b' o ha hb h
  unfold binary at h ⊢
  rw [ha, hb]
  split at h
  · cases h
  · rename_i hptr
    rw [if_neg hptr]
    split at h
    · rename_i hfloat
      rw [if_pos hfloat]
      cases op <;> cases h <;> exact ⟨_, rfl, rfl⟩
    · rename_i hint
      rw [if_neg hint]
      cases h
      exact ⟨_, rfl, rfl⟩

theorem typed₂_compare (cmp : Comparison) (isUnsigned : Bool) : Typed₂ (compare cmp isUnsigned) := by
  intro a a' b b' o ha hb h
  unfold compare at h ⊢
  rw [ha, hb]
  split at h
  · cases h
  · rename_i hptr
    rw [if_neg hptr]
    cases h
    exact ⟨_, rfl, rfl⟩

theorem typed_neg : Typed neg := by
  intro a a' o ha h
  unfold neg at h ⊢
  rw [ha]
  split at h
  · cases h
  · rename_i hptr
    rw [if_neg hptr]
    split at h
    · rename_i hfloat
      rw [if_pos hfloat]
      cases h
      exact ⟨_, rfl, rfl⟩
    · rename_i hint
      rw [if_neg hint]
      cases h
      exact ⟨_, rfl, rfl⟩

theorem typed_complement : Typed complement := by
  intro a a' o ha h
  unfold complement at h ⊢
  rw [ha]
  split at h
  · rename_i hint
    rw [if_pos hint]
    cases h
    exact ⟨_, rfl, rfl⟩
  · cases h

theorem typed_convert (type : CType) : Typed (convert type) := by
  intro a a' o ha h
  unfold convert at h ⊢
  rw [ha]
  split at h
  · cases h
  · rename_i hptr
    rw [if_neg hptr]
    cases h
    exact ⟨_, rfl, rfl⟩

theorem typed_convertUnsigned : Typed convertUnsigned := by
  intro a a' o ha h
  unfold convertUnsigned at h ⊢
  rw [ha]
  split at h
  · rename_i hint
    rw [if_pos hint]
    cases h
    exact ⟨_, rfl, rfl⟩
  · cases h

end COperand

end DeviceCode
