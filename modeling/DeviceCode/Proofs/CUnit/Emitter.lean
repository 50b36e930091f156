import DeviceCode.Proofs.CUnit.Operand

/-!
# The symbolic stack

`CEmitter.Valid e`: all operands are regular, and an operand reads no temporary below it but one that
holds the operand of its own depth. So operands that are taken off the stack keep their values while the
rest is settled, and settling never runs in circles.

`CEmitter.Settles e e'`: operands of `e` were put into their temporaries, one after the other, each
after all others that read the temporary. Main statements: `settle_ok`, `spill_ok` and
`materializeAll_cases`, this is what materializing, spilling and settling the whole stack do, the last
one up to a block of moves. All of it keeps the types of the operands.
-/

namespace DeviceCode

open CEmitter

open COperand

open List

variable {d k : Nat} {o o' : COperand} {v : CVar} {types : List CType} {n : Nat}

namespace CEmitter

/-- The operand at the depth stands in its temporary. -/
def Settled (e : CEmitter) (depth : Nat) : Prop :=
  ∃ type, e.stack[depth]? = some (COperand.temporary depth type)

/-- The operand may stand at the depth. -/
def Safe (e : CEmitter) (depth : Nat) (o : COperand) : Prop :=
  ∀ d t, .temporary d t ∈ o.reads → depth ≤ d ∨ e.stack[d]? = some (COperand.temporary d t)

structure Valid (e : CEmitter) : Prop where
  operands : ∀ (d : Nat) (o : COperand), e.stack[d]? = some o → o.Regular
  safe : ∀ (d : Nat) (o : COperand), e.stack[d]? = some o → e.Safe d o

theorem getElem?_types (e : CEmitter) (d : Nat) : e.types[d]? = e.stack[d]?.map (·.type) := by
  rw [types, getElem?_map, Array.getElem?_toList]

theorem length_types (e : CEmitter) : e.types.length = e.stack.size := by simp [types]

section
variable {e e' : CEmitter}

theorem Valid.settled_type (h : Valid e) (ho : e.stack[d]? = some o) (hs : e.Settled d) :
    o = COperand.temporary d o.type := by
  obtain ⟨t, ht⟩ := hs
  rw [ht, Option.some.injEq] at ho
  subst ho
  rw [type_temporary, (h.operands d _ ht).classes d t (mem_singleton.2 rfl)]

theorem Valid.isCanonical_iff (h : Valid e) (hd : d < e.stack.size) :
    e.isCanonical d = true ↔ e.Settled d := by
  have hget := Array.getElem?_eq_getElem hd
  have hregular := h.operands d _ hget
  unfold isCanonical
  rw [hget]
  dsimp only
  constructor
  · intro hcanonical
    unfold COperand.isCanonical at hcanonical
    split at hcanonical
    · rename_i depth type hexpr
      rw [Bool.and_eq_true, beq_iff_eq] at hcanonical
      refine ⟨type, ?_⟩
      rw [hget, hregular.bare depth type hexpr, hcanonical.1]
    · cases hcanonical
  · intro hsettled
    rw [h.settled_type hget hsettled]
    simp [COperand.isCanonical, COperand.temporary, COperand.ofPlace, COperand.type]

theorem Valid.not_isCanonical (h : Valid e) (hd : d < e.stack.size) (hn : ¬ e.Settled d) :
    e.isCanonical d = false := by
  rw [← Bool.not_eq_true, h.isCanonical_iff hd]
  exact hn

theorem Settled.reads (h : e.Settled d) (ho : e.stack[d]? = some o) (hv : v ∈ o.reads) :
    ∃ t, v = .temporary d t := by
  obtain ⟨t, ht⟩ := h
  rw [ht, Option.some.injEq] at ho
  subst ho
  exact ⟨t, reads_temporary hv⟩

/-! ## Operands that come and go -/

theorem size_push (e : CEmitter) (o : COperand) : (e.push o).stack.size = e.stack.size + 1 :=
  Array.size_push o

theorem types_push (e : CEmitter) (o : COperand) : (e.push o).types = e.types ++ [o.type] := by
  simp [types, push]

theorem getElem?_push (h : (e.push o).stack[d]? = some o') :
    e.stack[d]? = some o' ∨ d = e.stack.size ∧ o' = o := by
  rw [push, Array.getElem?_push] at h
  split at h
  · rename_i heq
    exact .inr ⟨heq, (Option.some.inj h).symm⟩
  · exact .inl h

theorem getElem?_push_of_some (h : e.stack[d]? = some o') (o : COperand) :
    (e.push o).stack[d]? = some o' := by
  obtain ⟨hlt, heq⟩ := Array.getElem?_eq_some_iff.1 h
  rw [push, Array.getElem?_push_lt hlt, heq]

theorem Valid.push (h : Valid e) (ho : o.Regular) (hsafe : e.Safe e.stack.size o) :
    Valid (e.push o) := by
  refine ⟨fun d o' hd => ?_, fun d o' hd d' t hr => ?_⟩
  · obtain hd | ⟨-, rfl⟩ := getElem?_push hd
    · exact h.operands d o' hd
    · exact ho
  · obtain hd | ⟨rfl, rfl⟩ := getElem?_push hd
    · exact (h.safe d o' hd d' t hr).imp_right fun hs => getElem?_push_of_some hs o
    · exact (hsafe d' t hr).imp_right fun hs => getElem?_push_of_some hs _

/-- The emitter with the lowest `n` operands only. -/
def lower (e : CEmitter) (n : Nat) : CEmitter := { e with stack := e.stack.take n }

theorem size_lower (e : CEmitter) (hn : n ≤ e.stack.size) :
    (e.lower n).stack.size = n := by
  simp [lower, hn]

theorem types_lower (e : CEmitter) (n : Nat) : (e.lower n).types = e.types.take n := by
  simp [types, lower, map_take]

theorem getElem?_lower (e : CEmitter) (hd : d < n) :
    (e.lower n).stack[d]? = e.stack[d]? := by
  rw [lower, Array.getElem?_extract]
  by_cases hlt : d < e.stack.size
  · rw [if_pos (by omega), Nat.zero_add]
  · rw [if_neg (by omega), Array.getElem?_eq_none (by omega)]

theorem getElem?_of_lower (hn : n ≤ e.stack.size) (h : (e.lower n).stack[d]? = some o) :
    d < n ∧ e.stack[d]? = some o := by
  have hlt := (Array.getElem?_eq_some_iff.1 h).1
  rw [size_lower e hn] at hlt
  exact ⟨hlt, getElem?_lower e hlt ▸ h⟩

theorem Valid.safe_lower (h : Valid e) {m : Nat} (hd : e.stack[d]? = some o) (hm : m ≤ d)
    (hmn : m ≤ n) : (e.lower n).Safe m o := by
  intro d' t hr
  obtain hle | hs := h.safe d o hd d' t hr
  · exact .inl (by omega)
  · by_cases hd' : d' < n
    · exact .inr ((getElem?_lower e hd').trans hs)
    · exact .inl (by omega)

theorem Valid.lower (h : Valid e) (hn : n ≤ e.stack.size) : Valid (e.lower n) := by
  refine ⟨fun d o hd => h.operands d o (getElem?_of_lower hn hd).2, fun d o hd => ?_⟩
  obtain ⟨hlt, hd⟩ := getElem?_of_lower hn hd
  exact h.safe_lower hd (Nat.le_refl d) (Nat.le_of_lt hlt)

theorem pop_ok (e : CEmitter) (hn : e.stack.size = n + 1) :
    ∃ o, e.stack[n]? = some o ∧ e.pop = .ok (o, e.lower n) := by
  refine ⟨e.stack[n], Array.getElem?_eq_getElem _, ?_⟩
  have hpop : e.stack.pop = e.stack.take n := by
    rw [Array.take_eq_extract, Array.extract_eq_pop (by omega)]
  unfold pop
  rw [Array.back?_eq_getElem?, Array.getElem?_eq_getElem (by omega)]
  simp only [hn, Nat.add_sub_cancel, hpop]
  rfl

theorem of_pop (h : e.pop = .ok (o, e')) :
    ∃ n, e.stack.size = n + 1 ∧ e.stack[n]? = some o ∧ e' = e.lower n := by
  cases hn : e.stack.size with
  | zero =>
    unfold pop at h
    rw [Array.back?_eq_getElem?, Array.getElem?_eq_none (by omega)] at h
    cases h
  | succ n =>
    obtain ⟨o', ho, hpop⟩ := pop_ok e hn
    rw [h, Except.ok.injEq, Prod.mk.injEq] at hpop
    exact ⟨n, rfl, hpop.1 ▸ ho, hpop.2⟩

theorem popMany_ok (e : CEmitter) (hn : e.stack.size = n + k) :
    e.popMany k = .ok (e.stack.toList.drop n, e.lower n) := by
  unfold popMany
  rw [if_neg (by omega)]
  simp only [hn, Nat.add_sub_cancel]
  rfl

theorem of_popMany {os : List COperand} (h : e.popMany k = .ok (os, e')) :
    ∃ n, e.stack.size = n + k ∧ os = e.stack.toList.drop n ∧ e' = e.lower n := by
  by_cases hk : e.stack.size < k
  · unfold popMany at h
    rw [if_pos hk] at h
    cases h
  · have hn : e.stack.size = (e.stack.size - k) + k := by omega
    have hpop := popMany_ok e hn
    rw [h, Except.ok.injEq, Prod.mk.injEq] at hpop
    exact ⟨_, hn, hpop⟩

end

/-! ## Settling operands -/

/-- The stack reads the temporary. -/
def Reading (e : CEmitter) (t : Nat × CType) : Prop :=
  ∃ (d : Nat) (o : COperand), e.stack[d]? = some o ∧ .temporary t.1 t.2 ∈ o.reads

/-- Statements of that kind were added. All temporaries in them, and all that the stack reads, were
read before or are in use. -/
structure Writes (kind : CStmt → Prop) (e e' : CEmitter) : Prop where
  body : ∃ new, e'.body.toList = e.body.toList ++ new ∧ ∀ st ∈ new, kind st ∧
    ∀ t ∈ st.temporaries, e.Reading t ∨ t ∈ e'.temporaries
  temporaries : ∀ t ∈ e.temporaries, t ∈ e'.temporaries
  reading : ∀ t, e'.Reading t → e.Reading t ∨ t ∈ e'.temporaries

section
variable {kind kind' : CStmt → Prop} {e e' e₁ e₂ e₃ : CEmitter}

theorem Writes.refl (kind : CStmt → Prop) (e : CEmitter) : Writes kind e e :=
  ⟨⟨[], by simp, by simp⟩, fun _ h => h, fun _ h => .inl h⟩

theorem Writes.trans (h₁ : Writes kind e₁ e₂) (h₂ : Writes kind e₂ e₃) : Writes kind e₁ e₃ := by
  obtain ⟨new, hnew, hkind⟩ := h₁.body
  obtain ⟨new', hnew', hkind'⟩ := h₂.body
  have hback : ∀ t, e₂.Reading t ∨ t ∈ e₃.temporaries → e₁.Reading t ∨ t ∈ e₃.temporaries := by
    rintro t (h | h)
    · exact (h₁.reading t h).imp_right (h₂.temporaries t)
    · exact .inr h
  refine ⟨⟨new ++ new', by rw [hnew', hnew, append_assoc], fun st hst => ?_⟩,
    fun t ht => h₂.temporaries t (h₁.temporaries t ht), fun t ht => hback t (h₂.reading t ht)⟩
  rcases mem_append.1 hst with hst | hst
  · exact ⟨(hkind st hst).1, fun t ht => ((hkind st hst).2 t ht).imp_right (h₂.temporaries t)⟩
  · exact ⟨(hkind' st hst).1, fun t ht => hback t ((hkind' st hst).2 t ht)⟩

theorem Writes.mono (h : Writes kind e e') (hkind : ∀ st, kind st → kind' st) :
    Writes kind' e e' := by
  obtain ⟨new, hnew, hall⟩ := h.body
  exact ⟨⟨new, hnew, fun st hst => ⟨hkind st (hall st hst).1, (hall st hst).2⟩⟩, h.temporaries,
    h.reading⟩

theorem Writes.write (h : Writes kind e e') {st : CStmt} (hst : kind st)
    (ht : ∀ t ∈ st.temporaries, e.Reading t ∨ t ∈ e'.temporaries) :
    Writes kind e (e'.write st) := by
  obtain ⟨new, hnew, hall⟩ := h.body
  refine ⟨⟨new ++ [st], by simp [CEmitter.write, hnew], fun st' hst' => ?_⟩, h.temporaries,
    h.reading⟩
  rcases mem_append.1 hst' with hst' | hst'
  · exact hall st' hst'
  · rw [mem_singleton.1 hst']
    exact ⟨hst, ht⟩

theorem Writes.of_stack (h : Writes kind e e') {stack : Array COperand}
    (hstack : ∀ (d : Nat) o, stack[d]? = some o → ∀ d' t, .temporary d' t ∈ o.reads →
      e.Reading (d', t) ∨ (d', t) ∈ e'.temporaries) :
    Writes kind e { e' with stack } :=
  ⟨h.body, h.temporaries, fun t ⟨d, o, ho, hr⟩ => hstack d o ho t.1 t.2 hr⟩

theorem Writes.push (h : Writes kind e e')
    (ho : ∀ d t, .temporary d t ∈ o.reads → e.Reading (d, t) ∨ (d, t) ∈ e'.temporaries) :
    Writes kind e (e'.push o) := by
  refine h.of_stack fun d o' hd d' t hr => ?_
  obtain hd | ⟨-, rfl⟩ := getElem?_push hd
  · exact h.reading (d', t) ⟨d, o', hd, hr⟩
  · exact ho d' t hr

theorem writes_lower (kind : CStmt → Prop) (hn : n ≤ e.stack.size) :
    Writes kind e (e.lower n) :=
  (Writes.refl kind e).of_stack fun d o hd _ _ hr =>
    .inl ⟨d, o, (getElem?_of_lower hn hd).2, hr⟩

theorem Valid.reading (h : Valid e) (hd : e.stack[d]? = some o) {t : Nat × CType}
    (ht : t ∈ o.expr.temporaries) : e.Reading t :=
  ⟨d, o, hd, (h.operands d o hd).mentions t ht⟩

end

theorem mem_useTemporary (e : CEmitter) (d : Nat) (type : CType) :
    (d, type) ∈ (e.useTemporary d type).temporaries := by
  unfold useTemporary
  split
  · rename_i h
    exact contains_iff_mem.1 h
  · simp

@[simp] theorem useTemporary_stack (e : CEmitter) (d : Nat) (type : CType) :
    (e.useTemporary d type).stack = e.stack := by
  unfold useTemporary
  split <;> rfl

@[simp] theorem useTemporary_body (e : CEmitter) (d : Nat) (type : CType) :
    (e.useTemporary d type).body = e.body := by
  unfold useTemporary
  split <;> rfl

theorem writes_useTemporary (kind : CStmt → Prop) (e : CEmitter) (d : Nat) (type : CType) :
    Writes kind e (e.useTemporary d type) := by
  refine ⟨⟨[], by simp, by simp⟩, fun t ht => ?_, fun t ⟨d', o, ho, hr⟩ => .inl ⟨d', o, ?_, hr⟩⟩
  · unfold useTemporary
    split
    · exact ht
    · exact mem_append_left _ ht
  · rwa [useTemporary_stack] at ho

/-- No operand but the one at the depth reads the temporary. -/
def Free (e : CEmitter) (depth : Nat) (type : CType) : Prop :=
  ∀ d o, d ≠ depth → e.stack[d]? = some o → .temporary depth type ∉ o.reads

/-- Operands were put into their temporaries, one after the other, each after all others that read the
temporary. -/
inductive Settles (e : CEmitter) : CEmitter → Prop
  | refl : Settles e e
  | step {e' : CEmitter} {d : Nat} {o : COperand} (before : Settles e e')
    (there : e'.stack[d]? = some o) (unsettled : ¬ e'.Settled d) (free : e'.Free d o.type) :
    Settles e (e'.assignTemporary d)

theorem Settles.trans {e₁ e₂ e₃ : CEmitter} (h₁ : Settles e₁ e₂) (h₂ : Settles e₂ e₃) :
    Settles e₁ e₃ := by
  induction h₂ with
  | refl => exact h₁
  | step before there unsettled free ih => exact .step ih there unsettled free

section
variable {e e' : CEmitter}

theorem assignTemporary_eq (hd : e.stack[d]? = some o) :
    e.assignTemporary d =
      { (e.useTemporary d o.type).write (.assign (.temporary d o.type) o.expr) with
        stack := e.stack.setIfInBounds d (COperand.temporary d o.type) } := by
  simp [assignTemporary, hd, write]

theorem getElem?_assignTemporary (hd : e.stack[d]? = some o) (d' : Nat) :
    (e.assignTemporary d).stack[d']? =
      if d' = d then some (COperand.temporary d o.type) else e.stack[d']? := by
  rw [assignTemporary_eq hd]
  rw [Array.getElem?_setIfInBounds]
  by_cases hsame : d = d'
  · rw [if_pos hsame, if_pos hsame.symm, if_pos (Array.getElem?_eq_some_iff.1 hd).1]
  · rw [if_neg hsame, if_neg (Ne.symm hsame)]

theorem writes_assignTemporary (hv : Valid e) (hd : e.stack[d]? = some o) :
    Writes CStmt.IsPlain e (e.assignTemporary d) := by
  have hdeclared := mem_useTemporary e d o.type
  rw [assignTemporary_eq hd]
  refine Writes.of_stack (Writes.write (writes_useTemporary _ e d o.type)
    (CStmt.isPlain_assign _ _) fun t ht => ?_) fun d' o' hd' d'' t hr => ?_
  · rw [CStmt.temporaries, mem_append] at ht
    rcases ht with ht | ht
    · obtain rfl : t = (d, o.type) := by simpa [CPlace.temporary?] using ht
      exact .inr hdeclared
    · exact .inl (hv.reading hd ht)
  · rw [Array.getElem?_setIfInBounds] at hd'
    split at hd'
    · split at hd'
      · cases hd'
        cases reads_temporary hr
        exact .inr hdeclared
      · cases hd'
    · exact .inl ⟨d', o', hd', hr⟩

theorem types_assignTemporary (e : CEmitter) (d : Nat) : (e.assignTemporary d).types = e.types := by
  cases hd : e.stack[d]? with
  | none => simp [assignTemporary, hd]
  | some o =>
    refine ext_getElem? fun d' => ?_
    rw [getElem?_types, getElem?_types, getElem?_assignTemporary hd]
    split
    · rename_i heq
      rw [heq, hd]
      simp
    · rfl

theorem getElem?_assignTemporary_of_temporary {d' : Nat} {t : CType} (hd : e.stack[d]? = some o)
    (hn : ¬ e.Settled d) (h : e.stack[d']? = some (COperand.temporary d' t)) :
    (e.assignTemporary d).stack[d']? = some (COperand.temporary d' t) := by
  rw [getElem?_assignTemporary hd, if_neg, h]
  rintro rfl
  exact hn ⟨t, h⟩

theorem Valid.assignTemporary (h : Valid e) (hd : e.stack[d]? = some o) (hn : ¬ e.Settled d) :
    Valid (e.assignTemporary d) := by
  have hget := getElem?_assignTemporary hd
  refine ⟨fun d' o' hd' => ?_, fun d' o' hd' d'' t hr => ?_⟩
  · rw [hget] at hd'
    split at hd'
    · rw [← Option.some.inj hd']
      exact regular_temporary d o.stackClass_type
    · exact h.operands d' o' hd'
  · rw [hget] at hd'
    split at hd'
    · rename_i heq
      rw [← Option.some.inj hd'] at hr
      cases reads_temporary hr
      exact .inl (Nat.le_of_eq heq)
    · exact (h.safe d' o' hd' d'' t hr).imp_right
        (getElem?_assignTemporary_of_temporary hd hn)

/-- What settling does to the stack. -/
structure Settling (e e' : CEmitter) : Prop where
  valid : Valid e'
  types : e'.types = e.types
  stack : ∀ d : Nat, e'.stack[d]? = e.stack[d]? ∨ e'.Settled d
  settled : ∀ (d : Nat) t, e.stack[d]? = some (COperand.temporary d t) →
    e'.stack[d]? = some (COperand.temporary d t)
  writes : Writes CStmt.IsPlain e e'

theorem Settling.size (h : Settling e e') : e'.stack.size = e.stack.size := by
  rw [← length_types, ← length_types, h.types]

theorem Settles.settling (h : Settles e e') (hv : Valid e) : Settling e e' := by
  induction h with
  | refl => exact ⟨hv, rfl, fun _ => .inl rfl, fun _ _ h => h, Writes.refl _ e⟩
  | @step e' d o before there unsettled free ih =>
    have hget := getElem?_assignTemporary there
    refine ⟨ih.valid.assignTemporary there unsettled, (types_assignTemporary e' d).trans ih.types,
      fun d' => ?_, fun d' t hd' => getElem?_assignTemporary_of_temporary there unsettled
        (ih.settled d' t hd'), ih.writes.trans (writes_assignTemporary ih.valid there)⟩
    by_cases heq : d' = d
    · subst heq
      exact .inr ⟨o.type, by rw [hget, if_pos rfl]⟩
    · rcases ih.stack d' with hsame | ⟨t, ht⟩
      · left
        rw [hget, if_neg heq, hsame]
      · exact .inr ⟨t, getElem?_assignTemporary_of_temporary there unsettled ht⟩

theorem Settling.safe (h : Settling e e') (ho : e.Safe d o) :
    e'.Safe d o := fun d' t hr => (ho d' t hr).imp_right (h.settled d' t)

theorem Settling.not_mem_reads (h : Settling e e') (hv : ∀ t, v ≠ .temporary d t)
    (hd : ∀ o, e.stack[d]? = some o → v ∉ o.reads) : ∀ o, e'.stack[d]? = some o → v ∉ o.reads := by
  intro o ho hr
  rcases h.stack d with hsame | hs
  · exact hd o (hsame ▸ ho) hr
  · obtain ⟨t, ht⟩ := hs.reads ho hr
    exact hv t ht

theorem readsAt_eq (hd : e.stack[d]? = some o) : e.readsAt d v = true ↔ v ∈ o.reads := by
  rw [readsAt, hd]
  exact contains_iff_mem

/-- **Putting an operand into its temporary** takes no more steps than there are operands up to it, and
leaves the operands above it alone. -/
theorem settle_ok : ∀ {bound depth : Nat} {e : CEmitter}, depth < bound → Valid e →
    depth < e.stack.size → ∃ e', settle bound depth e = .ok e' ∧ Settles e e' ∧ e'.Settled depth ∧
      ∀ d, depth < d → e'.stack[d]? = e.stack[d]?
  | 0, _, _, hbound, _, _ => absurd hbound (Nat.not_lt_zero _)
  | bound + 1, depth, e, hbound, hv, hdepth => by
    by_cases hsettled : e.Settled depth
    · refine ⟨e, ?_, .refl, hsettled, fun _ _ => rfl⟩
      rw [settle, if_pos ((hv.isCanonical_iff hdepth).2 hsettled)]
      rfl
    have hget := Array.getElem?_eq_getElem hdepth
    generalize e.stack[depth] = o at hget
    -- the operands before `i` read the temporary no more, and those from `depth` on are unchanged
    obtain ⟨e₁, hloop, hfirst, hsame, hfree⟩ : ∃ e₁, (range e.stack.size).foldlM (fun e other =>
        if other ≠ depth && e.readsAt other (.temporary depth o.type) then settle bound other e
        else .ok e) e = .ok e₁ ∧ _ := by
      refine except_foldlM_range (fun i e₁ => Settles e e₁ ∧
        (∀ d, depth ≤ d → e₁.stack[d]? = e.stack[d]?) ∧
        ∀ d < i, d ≠ depth → ∀ o', e₁.stack[d]? = some o' → .temporary depth o.type ∉ o'.reads) ?_
        ⟨.refl, fun _ _ => rfl, fun d hd => absurd hd (by omega)⟩
      rintro other e₁ hother ⟨hfirst, hsame, hfree⟩
      have hsettling := hfirst.settling hv
      have hother₁ : other < e₁.stack.size := hsettling.size ▸ hother
      have hgetOther := Array.getElem?_eq_getElem hother₁
      by_cases hreads : (other ≠ depth && e₁.readsAt other (.temporary depth o.type)) = true
      · rw [Bool.and_eq_true, decide_eq_true_eq, readsAt_eq hgetOther] at hreads
        -- what reads the temporary of an operand that is not settled lies below it
        have hbelow : other < depth := by
          obtain hle | hs := hsettling.valid.safe other _ hgetOther depth _ hreads.2
          · omega
          · rw [hsame depth (Nat.le_refl _)] at hs
            exact absurd ⟨_, hs⟩ hsettled
        obtain ⟨e₂, hstep, hsecond, hset, habove⟩ :=
          settle_ok (by omega : other < bound) hsettling.valid hother₁
        have hsettling₂ := hsecond.settling hsettling.valid
        refine ⟨e₂, ?_, hfirst.trans hsecond, fun d hd => ?_, fun d hd hne o' ho' hr => ?_⟩
        · rw [if_pos (by simp [hreads.1, (readsAt_eq hgetOther).2 hreads.2])]
          exact hstep
        · rw [habove d (by omega), hsame d hd]
        · by_cases hlast : d = other
          · subst hlast
            obtain ⟨t, ht⟩ := hset.reads ho' hr
            cases ht
            exact hne rfl
          · exact hsettling₂.not_mem_reads (by simpa using fun h => absurd h.symm hne)
              (hfree d (by omega) hne) o' ho' hr
      · refine ⟨e₁, if_neg hreads, hfirst, hsame, fun d hd hne o' ho' hr => ?_⟩
        by_cases hlast : d = other
        · subst hlast
          exact hreads (by simp [hne, (readsAt_eq ho').2 hr])
        · exact hfree d (by omega) hne o' ho' hr
    have hsettling := hfirst.settling hv
    have hget₁ := (hsame depth (Nat.le_refl _)).trans hget
    have hunsettled : ¬ e₁.Settled depth := by
      unfold Settled
      rw [hsame depth (Nat.le_refl _)]
      exact hsettled
    have hcanonical := hsettling.valid.not_isCanonical (hsettling.size ▸ hdepth) hunsettled
    refine ⟨e₁.assignTemporary depth, ?_, .step hfirst hget₁ hunsettled fun d o' hd ho' => ?_, ?_,
      fun d hd => ?_⟩
    · rw [settle, if_neg (by rw [hv.not_isCanonical hdepth hsettled]; decide), hget]
      simp only [hloop]
      show (if e₁.isCanonical depth = true then Except.ok e₁ else _) = _
      rw [hcanonical]
      rfl
    · refine hfree d ?_ hd o' ho'
      rw [← hsettling.size]
      exact (Array.getElem?_eq_some_iff.1 ho').1
    · exact ⟨o.type, by rw [getElem?_assignTemporary hget₁, if_pos rfl]⟩
    · rw [getElem?_assignTemporary hget₁, if_neg (by omega), hsame d (by omega)]

/-- **Spilling** puts the operands for which the test holds into temporaries, if it holds for none
that is there. -/
theorem spill_ok (hv : Valid e) (test : COperand → Bool)
    (htest : ∀ d t, d < e.stack.size → test (COperand.temporary d t) = false) :
    ∃ e', e.spill test = .ok e' ∧ Settles e e' ∧
      ∀ (d : Nat) o, e'.stack[d]? = some o → test o = false := by
  obtain ⟨e', hspill, hsettles, hdone⟩ : ∃ e', e.spill test = .ok e' ∧ _ := by
    refine except_foldlM_range (fun i e' => Settles e e' ∧
      ∀ d < i, ∀ o, e'.stack[d]? = some o → test o = false) ?_ ⟨.refl, by simp⟩
    rintro depth e₁ hdepth ⟨hfirst, hdone⟩
    have hsettling := hfirst.settling hv
    have hdepth₁ : depth < e₁.stack.size := hsettling.size ▸ hdepth
    have hget := Array.getElem?_eq_getElem hdepth₁
    simp only [hget]
    by_cases ht : test e₁.stack[depth] = true
    · obtain ⟨e₂, hstep, hsecond, hset, -⟩ :=
        settle_ok (Nat.lt_succ_of_lt hdepth₁) hsettling.valid hdepth₁
      refine ⟨e₂, by rw [if_pos ht]; exact hstep, hfirst.trans hsecond, fun d hd o ho => ?_⟩
      have hcase : e₂.stack[d]? = e₁.stack[d]? ∧ d < depth ∨ e₂.Settled d := by
        by_cases hlast : d = depth
        · exact .inr (hlast ▸ hset)
        · exact ((hsecond.settling hsettling.valid).stack d).imp_left fun h => ⟨h, by omega⟩
      obtain ⟨hsame, hlt⟩ | ⟨t, hs⟩ := hcase
      · exact hdone d hlt o (hsame ▸ ho)
      · rw [hs, Option.some.injEq] at ho
        subst ho
        exact htest d t (by omega)
    · refine ⟨e₁, if_neg ht, hfirst, fun d hd o ho => ?_⟩
      by_cases hlast : d = depth
      · subst hlast
        rw [hget, Option.some.injEq] at ho
        rw [← ho]
        exact Bool.not_eq_true _ ▸ ht
      · exact hdone d (by omega) o ho
  refine ⟨e', hspill, hsettles, fun d o ho => hdone d ?_ o ho⟩
  rw [← (hsettles.settling hv).size]
  exact (Array.getElem?_eq_some_iff.1 ho).1

theorem spillReaders_ok (hv : Valid e) (hvar : ∀ d t, d < e.stack.size → v ≠ .temporary d t) :
    ∃ e', e.spillReaders v = .ok e' ∧ Settles e e' ∧
      ∀ (d : Nat) o, e'.stack[d]? = some o → v ∉ o.reads := by
  have hnot : ∀ d t, d < e.stack.size →
      (temporary d t).reads.contains v = false := by
    intro d t hd
    simpa [temporary, ofPlace] using hvar d t hd
  obtain ⟨e', hspill, hsettles, hnone⟩ := spill_ok hv (·.reads.contains v) hnot
  refine ⟨e', hspill, hsettles, fun d o ho hr => ?_⟩
  rw [← contains_iff_mem, hnone d o ho] at hr
  cases hr

/-! ## Settling the whole stack -/

theorem getElem?_canonicalStack (types : List CType) (d : Nat) :
    (canonicalStack types)[d]? = types[d]?.map (COperand.temporary d) := by
  rw [canonicalStack]
  simp [Function.comp_def]

theorem mem_unsettled (hv : Valid e) : d ∈ e.unsettled ↔ d < e.stack.size ∧ ¬ e.Settled d := by
  rw [unsettled, mem_filter, mem_range]
  refine and_congr_right fun hd => ?_
  rw [Bool.not_eq_true', ← Bool.not_eq_true, hv.isCanonical_iff hd]

theorem nodup_unsettled (e : CEmitter) : e.unsettled.Nodup := nodup_range.filter _

theorem settles_moves (hv : Valid e) : ∀ {moves : List Nat} {e' : CEmitter}, Settles e e' →
    moves.Nodup → (∀ d ∈ moves, d < e.stack.size ∧ ¬ e'.Settled d) →
    (∀ d < e.stack.size, d ∉ moves → e'.Settled d) →
    (∀ d ∈ moves, ∀ other ∈ moves, other ≠ d → ∀ o o', e'.stack[d]? = some o →
      e'.stack[other]? = some o' → .temporary other o'.type ∉ o.reads) →
    Settles e (moves.foldl assignTemporary e') ∧
      ∀ d < e.stack.size, (moves.foldl assignTemporary e').Settled d
  | [], e', h, _, _, hsettled, _ => ⟨h, fun d hd => hsettled d hd not_mem_nil⟩
  | d :: moves, e', h, hnodup, hmoves, hsettled, hapart => by
    have hsettling := h.settling hv
    obtain ⟨hd, hunsettled⟩ := hmoves d mem_cons_self
    have hget := Array.getElem?_eq_getElem (hsettling.size.symm ▸ hd)
    have hstack := getElem?_assignTemporary hget
    obtain ⟨hnew, hrest⟩ := nodup_cons.1 hnodup
    rw [foldl_cons]
    refine settles_moves hv (.step h hget hunsettled fun d' o hne ho' => ?_) hrest
      (fun d' hd' => ?_) (fun d' hd' hout => ?_) fun d' hd' other hother hne o o' ho ho' => ?_
    · -- who else reads the temporary is not settled, and so among the moves
      intro hr
      have hd' : d' < e.stack.size := hsettling.size ▸ (Array.getElem?_eq_some_iff.1 ho').1
      by_cases hmem : d' ∈ d :: moves
      · exact hapart d' hmem d mem_cons_self (Ne.symm hne) o _ ho' hget hr
      · obtain ⟨t, ht⟩ := (hsettled d' hd' hmem).reads ho' hr
        cases ht
        exact hne rfl
    · have hne : d' ≠ d := fun heq => hnew (heq ▸ hd')
      obtain ⟨hlt, hn⟩ := hmoves d' (mem_cons_of_mem _ hd')
      refine ⟨hlt, ?_⟩
      rw [Settled, hstack, if_neg hne]
      exact hn
    · by_cases hne : d' = d
      · subst hne
        exact ⟨_, by rw [hstack, if_pos rfl]⟩
      · rw [Settled, hstack, if_neg hne]
        exact hsettled d' hd' (by simp [hne, hout])
    · have hned : d' ≠ d := fun heq => hnew (heq ▸ hd')
      have hneo : other ≠ d := fun heq => hnew (heq ▸ hother)
      rw [hstack, if_neg hned] at ho
      rw [hstack, if_neg hneo] at ho'
      exact hapart d' (mem_cons_of_mem _ hd') other (mem_cons_of_mem _ hother) hne o o' ho
        ho'

/-- The moves of the whole stack. -/
def moveBlock (e : CEmitter) : List CMove :=
  e.unsettled.filterMap fun d => e.stack[d]?.map fun o => CMove.mk d o.type o.expr

/-- The emitter after a move of a block. -/
def moved (e : CEmitter) (m : CMove) : CEmitter :=
  { e.useTemporary m.depth m.type with
    stack := e.stack.setIfInBounds m.depth (COperand.temporary m.depth m.type) }

/-- A block of moves settles the operands that it moves. -/
structure Moved (e : CEmitter) (block : List CMove) (e' : CEmitter) : Prop where
  body : e'.body = e.body
  size : e'.stack.size = e.stack.size
  declared : ∀ m ∈ block, (m.depth, m.type) ∈ e'.temporaries
  temporaries : ∀ t ∈ e.temporaries, t ∈ e'.temporaries
  settled : ∀ (d : Nat) o, e.stack[d]? = some o →
    o = COperand.temporary d o.type ∨ d ∈ block.map (·.depth) →
    e'.stack[d]? = some (COperand.temporary d o.type)

theorem moved_foldl : ∀ {block : List CMove} {e : CEmitter},
    (∀ m ∈ block, ∀ o, e.stack[m.depth]? = some o → m.type = o.type) →
    Moved e block (block.foldl moved e)
  | [], e, _ => by
    refine ⟨rfl, rfl, by simp, fun _ h => h, fun d o ho h => ?_⟩
    rw [foldl_nil, ho, ← h.resolve_right (by simp)]
  | m :: block, e, htypes => by
    have hget : ∀ d : Nat, (e.moved m).stack[d]? =
        (e.stack.setIfInBounds m.depth (temporary m.depth m.type))[d]? := fun _ => rfl
    have hsize : (e.moved m).stack.size = e.stack.size := by simp [moved]
    -- a move keeps the type of the operand that it moves
    have hcase : ∀ (d : Nat) o, (e.moved m).stack[d]? = some o → ∃ o', e.stack[d]? = some o' ∧
        o.type = o'.type ∧ (d = m.depth → o = temporary d o.type) ∧ (d ≠ m.depth → o = o') := by
      intro d o ho
      rw [hget, Array.getElem?_setIfInBounds] at ho
      by_cases heq : m.depth = d
      · rw [if_pos heq] at ho
        split at ho
        · rename_i hlt
          obtain ⟨o', hold⟩ : ∃ o', e.stack[m.depth]? = some o' := ⟨_, Array.getElem?_eq_getElem hlt⟩
          have htype := htypes m mem_cons_self o' hold
          cases ho
          refine ⟨o', heq ▸ hold, ?_, fun hd => ?_, fun hd => absurd heq.symm hd⟩
          · rw [type_temporary, htype, stackClass_type]
          · rw [type_temporary, htype, stackClass_type, heq]
        · cases ho
      · rw [if_neg heq] at ho
        exact ⟨o, ho, rfl, fun hd => absurd hd.symm heq, fun _ => rfl⟩
    have hrest : Moved (e.moved m) block _ := moved_foldl fun m' hm' o ho => by
      obtain ⟨o', ho', htype, -⟩ := hcase _ o ho
      rw [htype]
      exact htypes m' (mem_cons_of_mem _ hm') o' ho'
    have hold := (writes_useTemporary CStmt.IsPlain e m.depth m.type).temporaries
    refine ⟨hrest.body.trans (useTemporary_body e _ _), hrest.size.trans hsize, fun m' hm' => ?_,
      fun t ht => hrest.temporaries t (hold t ht), fun d o ho h => ?_⟩
    · rcases mem_cons.1 hm' with rfl | hm'
      · exact hrest.temporaries _ (mem_useTemporary e m'.depth m'.type)
      · exact hrest.declared m' hm'
    · have hlt : d < (e.moved m).stack.size := hsize ▸ (Array.getElem?_eq_some_iff.1 ho).1
      have hnew := Array.getElem?_eq_getElem hlt
      obtain ⟨o', ho', htype, hmoved, hkept⟩ := hcase d _ hnew
      obtain rfl := Option.some.inj (ho'.symm.trans ho)
      rw [← htype]
      refine hrest.settled d _ hnew ?_
      by_cases heq : d = m.depth
      · exact .inl (hmoved heq)
      · rw [map_cons, mem_cons] at h
        rw [hkept heq]
        exact h.imp_right fun hmem => hmem.resolve_left heq

theorem mem_moveBlock (hv : Valid e) {m : CMove} : m ∈ e.moveBlock ↔
    ∃ o, e.stack[m.depth]? = some o ∧ ¬ e.Settled m.depth ∧ m = ⟨m.depth, o.type, o.expr⟩ := by
  rw [moveBlock, mem_filterMap]
  constructor
  · rintro ⟨d, hd, hm⟩
    obtain ⟨hlt, hn⟩ := (mem_unsettled hv).1 hd
    obtain ⟨o, ho, rfl⟩ := Option.map_eq_some_iff.1 hm
    exact ⟨o, ho, hn, rfl⟩
  · rintro ⟨o, ho, hn, hm⟩
    have hlt := (Array.getElem?_eq_some_iff.1 ho).1
    refine ⟨m.depth, (mem_unsettled hv).2 ⟨hlt, hn⟩, ?_⟩
    rw [ho]
    exact congrArg some hm.symm

theorem map_depth_moveBlock (hv : Valid e) : e.moveBlock.map (·.depth) = e.unsettled := by
  have all : ∀ {moves : List Nat}, (∀ d ∈ moves, d < e.stack.size) →
      (moves.filterMap fun d => e.stack[d]?.map fun o => CMove.mk d o.type o.expr).map (·.depth) =
        moves := by
    intro moves
    induction moves with
    | nil => intro _; rfl
    | cons d moves ih =>
      intro h
      have hd := Array.getElem?_eq_getElem (h d mem_cons_self)
      rw [filterMap_cons, hd, Option.map_some, map_cons,
        ih fun d' hd' => h d' (mem_cons_of_mem _ hd')]
  exact all fun d hd => ((mem_unsettled hv).1 hd).1

theorem Moved.settled_all (h : Moved (e.write (.moveAll e.moveBlock)) e.moveBlock e') (hv : Valid e)
    (ho : e.stack[d]? = some o) : e'.stack[d]? = some (COperand.temporary d o.type) := by
  refine h.settled d o ho ?_
  rw [map_depth_moveBlock hv, mem_unsettled hv]
  by_cases hs : e.Settled d
  · exact .inl (hv.settled_type ho hs)
  · exact .inr ⟨(Array.getElem?_eq_some_iff.1 ho).1, hs⟩

/-- **Settling the whole stack**: operand by operand, or with a block of moves. -/
theorem materializeAll_cases (hv : Valid e) :
    (∀ d < e.stack.size, e.materializeAll.Settled d) ∧
      (Settles e e.materializeAll ∨
        Moved (e.write (.moveAll e.moveBlock)) e.moveBlock e.materializeAll) := by
  unfold materializeAll
  by_cases hconflict : e.movesConflict e.unsettled = true
  · rw [if_pos hconflict]
    have htypes : ∀ m ∈ e.moveBlock, ∀ o, e.stack[m.depth]? = some o → m.type = o.type := by
      intro m hm o ho
      obtain ⟨o', ho', -, hm⟩ := (mem_moveBlock hv).1 hm
      obtain rfl := Option.some.inj (ho'.symm.trans ho)
      rw [hm]
    have hmoved := moved_foldl (e := e.write (.moveAll e.moveBlock)) htypes
    exact ⟨fun d hd => ⟨_, hmoved.settled_all hv (Array.getElem?_eq_getElem hd)⟩, .inr hmoved⟩
  · rw [if_neg hconflict]
    have hmoves := settles_moves hv .refl (nodup_unsettled e) (fun d hd => (mem_unsettled hv).1 hd)
      (fun d hd hn => by
        by_contra hs
        exact hn ((mem_unsettled hv).2 ⟨hd, hs⟩))
      fun d hd other hother hne o o' ho ho' hr => hconflict ?_
    · exact ⟨hmoves.2, .inl hmoves.1⟩
    · refine any_eq_true.2 ⟨d, hd, any_eq_true.2 ⟨other, hother, ?_⟩⟩
      rw [Bool.and_eq_true, ho']
      refine ⟨by simpa using hne, ?_⟩
      exact (readsAt_eq ho).2 hr

theorem stack_eq_canonicalStack (hv : Valid e) (h : ∀ d < e.stack.size, e.Settled d) :
    e.stack = canonicalStack e.types := by
  refine Array.ext_getElem? fun d => ?_
  rw [getElem?_canonicalStack, getElem?_types]
  cases hd : e.stack[d]? with
  | none => rfl
  | some o =>
    rw [hv.settled_type hd (h d (Array.getElem?_eq_some_iff.1 hd).1)]
    simp

theorem valid_of_stack (hclass : ∀ t ∈ types, t.stackClass = t) (h : e.stack = canonicalStack types) :
    Valid e := by
  have settled : ∀ {d : Nat} {o : COperand}, e.stack[d]? = some o →
      ∃ t ∈ types, o = temporary d t := by
    intro d o ho
    rw [h, getElem?_canonicalStack] at ho
    obtain ⟨t, ht, rfl⟩ := Option.map_eq_some_iff.1 ho
    exact ⟨t, mem_of_getElem? ht, rfl⟩
  refine ⟨fun d o ho => ?_, fun d o ho d' t hr => ?_⟩
  · obtain ⟨t, ht, rfl⟩ := settled ho
    exact regular_temporary d (hclass t ht)
  · obtain ⟨t', -, rfl⟩ := settled ho
    cases reads_temporary hr
    exact .inl (Nat.le_refl _)

theorem types_class (e : CEmitter) : ∀ t ∈ e.types, t.stackClass = t := by
  intro t ht
  obtain ⟨o, -, rfl⟩ := mem_map.1 ht
  exact o.stackClass_type

theorem types_of_stack (hclass : ∀ t ∈ types, t.stackClass = t) (h : e.stack = canonicalStack types) :
    e.types = types := by
  refine ext_getElem? fun d => ?_
  rw [getElem?_types, h, getElem?_canonicalStack]
  cases ht : types[d]? with
  | none => rfl
  | some t =>
    exact congrArg some (hclass t (mem_of_getElem? ht))

theorem Valid.of_stack (hv : Valid e) (h : e'.stack = e.stack) : Valid e' := by
  obtain ⟨stack, body, temporaries⟩ := e'
  cases h
  exact ⟨hv.operands, hv.safe⟩

theorem settling_materializeAll (hv : Valid e) : Settling e e.materializeAll := by
  obtain ⟨hall, hsettles | hmoved⟩ := materializeAll_cases hv
  · exact hsettles.settling hv
  have hsize : e.materializeAll.stack.size = e.stack.size := hmoved.size
  have hstack : e.materializeAll.stack = canonicalStack e.types := by
    refine Array.ext_getElem? fun d => ?_
    rw [getElem?_canonicalStack, getElem?_types]
    cases hd : e.stack[d]? with
    | none =>
      rw [Array.getElem?_eq_none_iff] at hd
      exact Array.getElem?_eq_none (by omega)
    | some o => exact hmoved.settled_all hv hd
  -- every operand is settled by a move or was settled before
  have hreading : ∀ {d : Nat} {o : COperand}, e.stack[d]? = some o →
      e.Reading (d, o.type) ∨ (d, o.type) ∈ e.materializeAll.temporaries := by
    intro d o ho
    by_cases hs : e.Settled d
    · refine .inl ⟨d, o, ho, ?_⟩
      rw [hv.settled_type ho hs]
      exact mem_singleton.2 (by rw [type_temporary, stackClass_type])
    · exact .inr (hmoved.declared ⟨d, o.type, o.expr⟩ ((mem_moveBlock hv).2 ⟨o, ho, hs, rfl⟩))
  refine ⟨valid_of_stack (types_class e) hstack, types_of_stack (types_class e) hstack, fun d => ?_,
    fun d t hd => ?_, ⟨⟨[.moveAll e.moveBlock], ?_, fun st hst => ?_⟩, hmoved.temporaries, ?_⟩⟩
  · by_cases hd : d < e.stack.size
    · exact .inr (hall d hd)
    · left
      rw [Array.getElem?_eq_none (by omega), Array.getElem?_eq_none (by omega)]
  · rw [hmoved.settled_all hv hd, ← hv.settled_type hd ⟨t, hd⟩]
  · rw [hmoved.body]
    simp [write]
  · rw [mem_singleton.1 hst]
    refine ⟨CStmt.isPlain_moveAll _, fun t ht => ?_⟩
    obtain ⟨m, hm, ht⟩ := mem_flatMap.1 ht
    obtain ⟨o, ho, -, hmove⟩ := (mem_moveBlock hv).1 hm
    rw [hmove] at ht
    rcases mem_cons.1 ht with rfl | ht
    · exact hreading ho
    · exact .inl (hv.reading ho ht)
  · rintro ⟨d, t⟩ ⟨d', o', ho', hr⟩
    obtain ⟨o, ho⟩ : ∃ o, e.stack[d']? = some o :=
      ⟨_, Array.getElem?_eq_getElem (hsize ▸ (Array.getElem?_eq_some_iff.1 ho').1)⟩
    rw [hmoved.settled_all hv ho, Option.some.injEq] at ho'
    subst ho'
    cases reads_temporary hr
    exact hreading ho

theorem stack_materializeAll (hv : Valid e) : e.materializeAll.stack = canonicalStack e.types := by
  have hsettling := settling_materializeAll hv
  rw [stack_eq_canonicalStack hsettling.valid fun d hd =>
    (materializeAll_cases hv).1 d (hsettling.size ▸ hd), hsettling.types]

/-! ## Operands of instructions -/

variable {n : Nat}

theorem branchOperand_ok (hv : Valid e) (hn : e.stack.size = n + 1) :
    ∃ o, e.stack[n]? = some o ∧
      e.branchOperand = .ok (o.expr, (e.lower n).materializeAll) := by
  obtain ⟨o, ho, hpop⟩ := pop_ok e hn
  refine ⟨o, ho, ?_⟩
  have hlower := hv.lower (n := n) (by omega)
  have hsafe := hv.safe_lower ho (Nat.le_refl n) (Nat.le_refl n)
  refine except_bind_ok.2 ⟨_, hpop, ?_⟩
  dsimp only
  rw [if_neg]
  · rfl
  · rw [Bool.not_eq_true, any_eq_false]
    intro d hd
    obtain ⟨hlt, hunsettled⟩ := (mem_unsettled hlower).1 hd
    have hget := Array.getElem?_eq_getElem hlt
    rw [hget]
    rw [contains_iff_mem]
    intro hr
    rw [size_lower e (by omega)] at hlt
    exact (hsafe d _ hr).elim (by omega) fun hs => hunsettled ⟨_, hs⟩

/-- A store takes its operand, after those that read the variable are out of the way. -/
theorem store_ok (hv : Valid e) (hn : e.stack.size = n + 1) (hvar : ∀ d t, v ≠ .temporary d t)
    (place : CPlace) :
    ∃ o e', e.stack[n]? = some o ∧ Settles (e.lower n) e' ∧
      (∀ (d : Nat) o', e'.stack[d]? = some o' → v ∉ o'.reads) ∧
      e.store place v = .ok (e'.write (.assign place o.expr)) := by
  obtain ⟨o, ho, hpop⟩ := pop_ok e hn
  obtain ⟨e', hspill, hsettles, hnone⟩ :=
    spillReaders_ok (hv.lower (n := n) (by omega)) fun d t _ => hvar d t
  refine ⟨o, e', ho, hsettles, hnone, ?_⟩
  refine except_bind_ok.2 ⟨_, hpop, except_bind_ok.2 ⟨e', hspill, rfl⟩⟩

theorem dup_ok (hv : Valid e) (hn : e.stack.size = n + 1) :
    ∃ o e', Settles e e' ∧ e'.stack[n]? = some o ∧ e'.Safe (n + 1) o ∧
      e.dup = .ok (e'.push o) := by
  have hget := Array.getElem?_eq_getElem (show n < e.stack.size by omega)
  have hback : ∀ e' : CEmitter, e'.stack.size = n + 1 → e'.stack.back? = e'.stack[n]? := by
    intro e' he'
    rw [Array.back?_eq_getElem?, he', Nat.add_sub_cancel]
  have hregular := hv.operands n _ hget
  unfold dup
  rw [hback e hn, hget]
  dsimp only
  by_cases hsimple : e.stack[n].simple = true
  · refine ⟨e.stack[n], e, .refl, hget, fun d t hr => ?_, ?_⟩
    · obtain hle | hs := hv.safe n _ hget d t hr
      · by_cases hd : d = n
        · subst hd
          exact .inr (hget.trans (congrArg some (hregular.simple hsimple d t hr)))
        · exact .inl (by omega)
      · exact .inr hs
    · rw [if_pos hsimple]
      refine except_bind_ok.2 ⟨e, rfl, ?_⟩
      rw [hback e hn, hget]
      rfl
  · have hlt : n < e.stack.size := by omega
    obtain ⟨e', hsettle, hsettles, ⟨t, hset⟩, -⟩ := settle_ok (Nat.lt_succ_of_lt hlt) hv hlt
    have hsize := (hsettles.settling hv).size.trans hn
    refine ⟨temporary n t, e', hsettles, hset, fun d t' hr => ?_, ?_⟩
    · cases reads_temporary hr
      exact .inr hset
    · rw [if_neg hsimple]
      refine except_bind_ok.2 ⟨e', ?_, ?_⟩
      · rw [materialize, hn, Nat.add_sub_cancel, ← hn]
        exact hsettle
      · rw [hback e' hsize, hset]
        rfl

end

end CEmitter

end DeviceCode
