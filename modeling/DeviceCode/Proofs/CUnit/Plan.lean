import DeviceCode.CUnit.Plan
import DeviceCode.Proofs.CUnit.Agreement
import DeviceCode.Proofs.StackProfile

/-!
# What a plan says

`CPlan.Sound s code plan`: the plan has types at the instructions that control can reach (`Reaches`), an
instruction can be written on its types, and what it leaves are the types of all its successors. Every
target of an instruction has a label. Main statement: `sound_of_ofMethod`, a plan of a method is sound.
-/

namespace DeviceCode

open List

variable {types : List CType} {instruction : Instruction} {i t : Nat}

/-- Control can reach the instruction with the index. -/
inductive Reaches (code : Array Instruction) : Nat → Prop
  | start (inside : 0 < code.size) : Reaches code 0
  | step {i j : Nat} {instruction : Instruction} (before : Reaches code i)
    (there : code[i]? = some instruction) (next : j ∈ instruction.op.successors i code.size) :
    Reaches code j

namespace CPlan

/-- What the plan says about the instruction with the index, with the types on its entry. -/
def Explains (s : CScope) (code : Array Instruction) (known : Nat → Option (List CType)) (i : Nat)
    (instruction : Instruction) (types : List CType) : Prop :=
  ∃ types', CEmitter.Typing s i instruction.op types types' ∧
    ∀ j ∈ instruction.op.successors i code.size, known j = some types'

structure Sound (s : CScope) (code : Array Instruction) (plan : CPlan) : Prop where
  start : 0 < code.size → plan.entry? 0 = some []
  entry : ∀ (i : Nat) types, plan.entry? i = some types → ∃ instruction,
    code[i]? = some instruction ∧ (∀ t ∈ instruction.op.targets, t < code.size) ∧
      (∀ t ∈ types, t.stackClass = t) ∧ Explains s code plan.entry? i instruction types
  reaches : ∀ (i : Nat) types, plan.entry? i = some types → Reaches code i
  label : ∀ (i t : Nat) instruction, code[i]? = some instruction → t ∈ instruction.op.targets →
    t < code.size → plan.isLabel t = true

/-! ## Passing types on -/

/-- The entries with types for more instructions. -/
structure Joined (types : List CType) (nexts : List Nat) (entries entries' : Array (Option (List CType))) :
    Prop where
  size : entries'.size = entries.size
  next : ∀ j ∈ nexts, entries'[j]?.join = some types
  kept : ∀ (i : Nat) known, entries[i]?.join = some known → entries'[i]?.join = some known
  origin : ∀ (i : Nat) known, entries'[i]?.join = some known →
    entries[i]?.join = some known ∨ i ∈ nexts ∧ known = types

theorem joined_of_join {entries entries' : Array (Option (List CType))} {next : Nat}
    (hlt : next < entries.size) (h : join types entries next = .ok entries') :
    Joined types [next] entries entries' := by
  unfold join at h
  split at h
  · rename_i hnone
    cases h
    have hget : ∀ i : Nat, (entries.setIfInBounds next (some types))[i]?.join =
        if i = next then some types else entries[i]?.join := by
      intro i
      rw [Array.getElem?_setIfInBounds]
      by_cases hi : next = i
      · rw [if_pos hi, if_pos hi.symm, if_pos hlt]
        rfl
      · rw [if_neg hi, if_neg (Ne.symm hi)]
    refine ⟨Array.size_setIfInBounds, fun j hj => ?_, fun i known hi => ?_, fun i known hi => ?_⟩
    · rw [hget, if_pos (mem_singleton.1 hj)]
    · rw [hget, if_neg, hi]
      rintro rfl
      rw [hnone] at hi
      cases hi
    · rw [hget] at hi
      split at hi
      · rename_i heq
        exact .inr ⟨mem_singleton.2 heq, (Option.some.inj hi).symm⟩
      · exact .inl hi
  · rename_i known hknown
    split at h
    · rename_i heq
      cases h
      refine ⟨rfl, fun j hj => ?_, fun _ _ hi => hi, fun _ _ hi => .inl hi⟩
      rw [mem_singleton.1 hj, hknown, heq]
    · cases h

theorem joined_of_foldlM {nexts : List Nat} :
    ∀ {entries entries' : Array (Option (List CType))}, (∀ j ∈ nexts, j < entries.size) →
    nexts.foldlM (join types) entries = .ok entries' → Joined types nexts entries entries' := by
  induction nexts with
  | nil =>
    intro entries entries' _ h
    cases except_pure_ok.1 h
    exact ⟨rfl, by simp, fun _ _ hi => hi, fun _ _ hi => .inl hi⟩
  | cons next nexts ih =>
    intro entries entries' hlt h
    obtain ⟨entries₁, hfirst, hrest⟩ := except_bind_ok.1 h
    have h₁ := joined_of_join (hlt next mem_cons_self) hfirst
    have h₂ := ih (fun j hj => h₁.size ▸ hlt j (mem_cons_of_mem _ hj)) hrest
    refine ⟨h₂.size.trans h₁.size, fun j hj => ?_, fun i known hi => h₂.kept i known
      (h₁.kept i known hi), fun i known hi => ?_⟩
    · rcases mem_cons.1 hj with rfl | hj
      · exact h₂.kept j types (h₁.next j (mem_singleton.2 rfl))
      · exact h₂.next j hj
    · rcases h₂.origin i known hi with hi | ⟨hmem, htypes⟩
      · exact (h₁.origin i known hi).imp_right fun ⟨hmem, htypes⟩ =>
          ⟨mem_cons.2 (.inl (mem_singleton.1 hmem)), htypes⟩
      · exact .inr ⟨mem_cons_of_mem _ hmem, htypes⟩

/-! ## The walk -/

/-- What is known after some visits. -/
structure Visited (s : CScope) (code : Array Instruction) (done : List Visit)
    (entries : Array (Option (List CType))) : Prop where
  size : entries.size = code.size
  start : 0 < code.size → entries[0]?.join = some []
  classes : ∀ (i : Nat) types, entries[i]?.join = some types → ∀ t ∈ types, t.stackClass = t
  reaches : ∀ (i : Nat) types, entries[i]?.join = some types → Reaches code i
  listed : ∀ (i : Nat) types, entries[i]?.join = some types → (s.method.profile.depth? i).isSome
  passed : ∀ v ∈ done, ∀ instruction, code[v.index]? = some instruction → ∃ types,
    entries[v.index]?.join = some types ∧
      Explains s code (fun j => entries[j]?.join) v.index instruction types

section
variable {s : CScope} {code : Array Instruction} {done : List Visit}
  {entries entries' : Array (Option (List CType))} {v : Visit} {effect : Nat → Op → Nat × Nat}

theorem Visited.known (h : Visited s code done entries) (hf : StackProfile.Follows code done v)
    (hv : v.index < code.size) : ∃ types, entries[v.index]?.join = some types := by
  obtain ⟨index, origin⟩ := v
  cases origin with
  | none =>
    cases (show index = 0 from hf)
    exact ⟨[], h.start hv⟩
  | some origin =>
    obtain ⟨u, hu, rfl, instruction, hcode, hmem⟩ := hf
    obtain ⟨types, -, types', -, hnext⟩ := h.passed u hu instruction hcode
    exact ⟨types', hnext index hmem⟩

/-- **A visit** writes the instruction on the types that are known, and passes on what it leaves. -/
theorem Visited.visit (h : Visited s code done entries)
    (hprofile : StackProfile.Describes code effect s.method.profile)
    (hf : StackProfile.Follows code done v) (hcode : code[v.index]? = some instruction)
    (hvisit : visit s code entries v = .ok entries') : Visited s code (done ++ [v]) entries' := by
  obtain ⟨types, htypes⟩ := h.known hf (Array.getElem?_eq_some_iff.1 hcode).1
  obtain ⟨d, hd⟩ := Option.isSome_iff_exists.1 (h.listed _ _ htypes)
  obtain ⟨i, hfits, hnext⟩ := hprofile.fits v.index d hd
  obtain rfl : instruction = i := Option.some.inj (hcode.symm.trans hfits.there)
  unfold CPlan.visit at hvisit
  rw [hcode, htypes] at hvisit
  obtain ⟨e, hstep, hjoin⟩ := except_bind_ok.1 hvisit
  have hclasses := h.classes _ _ htypes
  have hvalid : CEmitter.Valid { stack := CEmitter.canonicalStack types } :=
    CEmitter.valid_of_stack hclasses rfl
  obtain ⟨-, htyping⟩ := CEmitter.emits_of_step hvalid hstep
  have hbefore : CEmitter.types { stack := CEmitter.canonicalStack types } = types :=
    CEmitter.types_of_stack hclasses rfl
  rw [hbefore] at htyping
  have hsuccessors : ∀ j ∈ instruction.op.successors v.index code.size, j < code.size :=
    fun j hj => Op.lt_of_mem_successors hfits.targets hj
  have hjoined := joined_of_foldlM (fun j hj => h.size.symm ▸ hsuccessors j hj) hjoin
  refine ⟨hjoined.size.trans h.size, fun hpos => hjoined.kept 0 [] (h.start hpos),
    fun j known hj => ?_, fun j known hj => ?_, fun j known hj => ?_, fun u hu i hi => ?_⟩
  · rcases hjoined.origin j known hj with hj | ⟨-, rfl⟩
    · exact h.classes j known hj
    · exact CEmitter.types_class e
  · rcases hjoined.origin j known hj with hj | ⟨hmem, -⟩
    · exact h.reaches j known hj
    · exact .step (h.reaches _ _ htypes) hcode hmem
  · rcases hjoined.origin j known hj with hj | ⟨hmem, -⟩
    · exact h.listed j known hj
    · rw [hnext j hmem]
      rfl
  · rcases mem_append.1 hu with hu | hu
    · obtain ⟨known, hknown, types', htyping', hnexts⟩ := h.passed u hu i hi
      exact ⟨known, hjoined.kept _ _ hknown, types', htyping',
        fun j hj => hjoined.kept j types' (hnexts j hj)⟩
    · cases mem_singleton.1 hu
      obtain rfl : instruction = i := Option.some.inj (hcode.symm.trans hi)
      exact ⟨types, hjoined.kept _ _ htypes, e.types, htyping, hjoined.next⟩

/-- The entries before the first visit. -/
def noVisits (code : Array Instruction) : Array (Option (List CType)) :=
  (Array.replicate code.size none).setIfInBounds 0 (some [])

theorem entry_start (h : (noVisits code)[i]?.join = some types) :
    i = 0 ∧ 0 < code.size ∧ types = [] := by
  rw [noVisits, Array.getElem?_setIfInBounds, Array.getElem?_replicate, Array.size_replicate] at h
  split at h
  · rename_i hi
    split at h
    · rename_i hpos
      exact ⟨hi.symm, hpos, (Option.some.inj h).symm⟩
    · cases h
  · split at h <;> cases h

theorem visited_start (hprofile : StackProfile.Describes code effect s.method.profile) :
    Visited s code [] (noVisits code) := by
  refine ⟨by simp [noVisits], fun hpos => ?_, fun i types h => ?_, fun i types h => ?_, fun i types h => ?_,
    by simp⟩
  · rw [noVisits, Array.getElem?_setIfInBounds, if_pos rfl, if_pos (by simpa using hpos)]
    rfl
  · obtain ⟨-, -, rfl⟩ := entry_start h
    simp
  · obtain ⟨rfl, hpos, -⟩ := entry_start h
    exact .start hpos
  · obtain ⟨rfl, hpos, -⟩ := entry_start h
    rw [hprofile.start hpos]
    rfl

theorem exists_of_mem_order (hprofile : StackProfile.Describes code effect s.method.profile)
    (hv : v ∈ s.method.profile.order) : ∃ instruction, code[v.index]? = some instruction := by
  obtain ⟨d, hd⟩ := Option.isSome_iff_exists.1 ((hprofile.listed v.index).2 ⟨v, hv, rfl⟩)
  obtain ⟨instruction, hfits, -⟩ := hprofile.fits v.index d hd
  exact ⟨instruction, hfits.there⟩

theorem mem_order_of_split {done rest : List Visit}
    (hsplit : s.method.profile.order.toList = done ++ v :: rest) : v ∈ s.method.profile.order := by
  rw [← Array.mem_toList_iff, hsplit]
  simp

/-- **What the walk knows** after its first visits, with what else each visit keeps. -/
theorem visited_of_walk (hprofile : StackProfile.Describes code effect s.method.profile)
    {P : List Visit → Array (Option (List CType)) → Prop} (hstart : P [] (noVisits code))
    (hkeeps : ∀ {done entries entries' v instruction types}, Visited s code done entries →
      v ∈ s.method.profile.order → code[v.index]? = some instruction →
      entries[v.index]?.join = some types → visit s code entries v = .ok entries' →
      P done entries → P (done ++ [v]) entries')
    {done rest : List Visit} (hsplit : s.method.profile.order.toList = done ++ rest)
    (hwalk : done.foldlM (visit s code) (noVisits code) = .ok entries) :
    Visited s code done entries ∧ P done entries := by
  refine except_foldlM_ok (fun done entries => ∀ rest, s.method.profile.order.toList = done ++ rest →
    Visited s code done entries ∧ P done entries) ?_
    (fun _ _ => ⟨visited_start hprofile, hstart⟩) hwalk rest hsplit
  intro done entries v entries' ih hvisit rest hsplit
  rw [append_assoc] at hsplit
  obtain ⟨hvisited, hkept⟩ := ih _ hsplit
  have hv := mem_order_of_split hsplit
  obtain ⟨instruction, hcode⟩ := exists_of_mem_order hprofile hv
  have hfollows := hprofile.follows done v rest hsplit
  obtain ⟨types, htypes⟩ := hvisited.known hfollows (Array.getElem?_eq_some_iff.1 hcode).1
  exact ⟨hvisited.visit hprofile hfollows hcode hvisit,
    hkeeps hvisited hv hcode htypes hvisit hkept⟩

/-! ## Labels -/

theorem getElem?_setLabels : ∀ {ts : List Nat} {labels : Array Bool}, t < labels.size →
    labels[t]? = some true ∨ t ∈ ts →
    (ts.foldl (fun labels t => labels.setIfInBounds t true) labels)[t]? = some true
  | [], labels, _, h => h.resolve_right not_mem_nil
  | t' :: ts, labels, hlt, h => by
    rw [foldl_cons]
    refine getElem?_setLabels (by simpa using hlt) ?_
    rw [Array.getElem?_setIfInBounds]
    by_cases heq : t' = t
    · rw [if_pos heq, if_pos (heq ▸ hlt)]
      exact .inl rfl
    · rw [if_neg heq]
      rcases h with h | h
      · exact .inl h
      · exact .inr ((mem_cons.1 h).resolve_left (Ne.symm heq))

theorem size_setLabels : ∀ (ts : List Nat) (labels : Array Bool),
    (ts.foldl (fun labels t => labels.setIfInBounds t true) labels).size = labels.size
  | [], _ => rfl
  | t :: ts, labels => by
    rw [foldl_cons, size_setLabels ts, Array.size_setIfInBounds]

theorem isLabel_of_target (hcode : code[i]? = some instruction) (ht : t ∈ instruction.op.targets)
    (hlt : t < code.size) (types : Array (Option (List CType))) :
    isLabel ⟨types, labelsOf code⟩ t = true := by
  have all : ∀ {is : List Instruction} {labels : Array Bool}, t < labels.size →
      (labels[t]? = some true ∨ ∃ i ∈ is, t ∈ i.op.targets) →
      (is.foldl (fun labels i => i.op.targets.foldl (fun labels t => labels.setIfInBounds t true)
        labels) labels)[t]? = some true := by
    intro is
    induction is with
    | nil => exact fun _ h => h.resolve_right (by simp)
    | cons j is ih =>
      intro labels hlt h
      refine ih (by rwa [size_setLabels]) ?_
      rcases h with h | ⟨k, hk, htk⟩
      · exact .inl (getElem?_setLabels hlt (.inl h))
      · rcases mem_cons.1 hk with rfl | hk
        · exact .inl (getElem?_setLabels hlt (.inr htk))
        · exact .inr ⟨k, hk, htk⟩
  have hset : (labelsOf code)[t]? = some true := by
    rw [labelsOf, ← Array.foldl_toList]
    refine all (by simpa using hlt) (.inr ⟨instruction, ?_, ht⟩)
    exact Array.mem_toList_iff.2 (Array.mem_of_getElem? hcode)
  rw [isLabel, hset]
  rfl

/-! ## Whole plans -/

/-- A plan for a scope that has no layout yet is what the walk finds. -/
theorem ofMethod_eq (hs : s.layout = none) :
    ofMethod s.methods s.builtins s.method code =
      s.method.profile.order.toList.foldlM (visit s code) (noVisits code) >>= fun entries =>
        pure ⟨entries, labelsOf code⟩ := by
  cases s
  cases hs
  rw [Array.foldlM_toList]
  rfl

/-- **A plan of a method is sound.** -/
theorem sound_of_ofMethod (hs : s.layout = none) {plan : CPlan}
    (h : ofMethod s.methods s.builtins s.method code = .ok plan)
    (hprofile : StackProfile.Describes code effect s.method.profile) : Sound s code plan := by
  rw [ofMethod_eq hs] at h
  obtain ⟨entries, hwalk, hplan⟩ := except_bind_ok.1 h
  cases hplan
  obtain ⟨hvisited, -⟩ := visited_of_walk (P := fun _ _ => True) hprofile ⟨⟩
    (fun _ _ _ _ _ _ => ⟨⟩) (append_nil _).symm hwalk
  refine ⟨hvisited.start, fun i types hi => ?_, hvisited.reaches,
    fun i t instruction hcode ht hlt => isLabel_of_target hcode ht hlt entries⟩
  obtain ⟨d, hd⟩ := Option.isSome_iff_exists.1 (hvisited.listed i types hi)
  obtain ⟨instruction, hfits, -⟩ := hprofile.fits i d hd
  obtain ⟨v, hv, rfl⟩ := (hprofile.listed i).1 (by rw [hd]; rfl)
  obtain ⟨known, hknown, hexplains⟩ :=
    hvisited.passed v (Array.mem_toList_iff.2 hv) instruction hfits.there
  obtain rfl := Option.some.inj (hknown.symm.trans hi)
  exact ⟨instruction, hfits.there, hfits.targets, hvisited.classes _ _ hi, hexplains⟩

end

end CPlan

end DeviceCode
