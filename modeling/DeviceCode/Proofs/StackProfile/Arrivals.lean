import DeviceCode.Proofs.StackProfile

/-!
# Profiles and the ways through a body

`StackProfile.Arrives code effect i d`: there is a way through the body that comes to the instruction
at `i` with `d` operands on the stack. The walk visits every instruction once, and follows no other
way to it further. Main statement: `analyze_exact`, this is enough. A body has a profile exactly if all
ways agree (`Balanced`), its profile says where they lead and how deep the stack gets (`Exact`), and an
error is one that some way runs into (`Witnessed`).

What is visited or pending is on some way (`Rooted`); that no way is missed is `Describes`.
-/

namespace DeviceCode

open List

variable {e : ProfileError} {i d : Nat} {code : Array Instruction} {effect : Nat → Op → Nat × Nat}

namespace StackProfile

/-! ## Ways -/

section
variable (code effect)

/-- Some way through the body comes to the instruction at an index with that depth. -/
inductive Arrives : Nat → Nat → Prop
  | start (inside : 0 < code.size) : Arrives 0 0
  | step {i j depth : Nat} {instruction : Instruction} (before : Arrives i depth)
    (there : code[i]? = some instruction) (takes : (effect i instruction.op).1 ≤ depth)
    (next : j ∈ instruction.op.successors i code.size) :
    Arrives j (after effect i instruction.op depth)

/-- All ways to an instruction agree on the depth, and an instruction on a way finds what it takes and
names targets in the body. -/
structure Balanced : Prop where
  unique : ∀ i d d', Arrives code effect i d → Arrives code effect i d' → d = d'
  takes : ∀ (i d : Nat) instruction, Arrives code effect i d → code[i]? = some instruction →
    (effect i instruction.op).1 ≤ d
  targets : ∀ (i d : Nat) instruction, Arrives code effect i d → code[i]? = some instruction →
    ∀ t ∈ instruction.op.targets, t < code.size

/-- The stack has that depth before or after an instruction on a way. -/
def Occurs (depth : Nat) : Prop :=
  ∃ (i d : Nat) (instruction : Instruction), Arrives code effect i d ∧ code[i]? = some instruction ∧
    (depth = d ∨ depth = after effect i instruction.op d)

/-- The profile says where the ways lead. -/
structure Exact (s : StackProfile) : Prop where
  size : s.depths.size = code.size
  depths : ∀ i d : Nat, s.depths[i]? = some (some d) ↔ Arrives code effect i d
  /-- No depth that occurs is greater. -/
  greatest : ∀ depth, Occurs code effect depth → depth ≤ s.maxDepth
  /-- The greatest depth occurs, unless there is no instruction. -/
  occurs : if code.size = 0 then s.maxDepth = 0 else Occurs code effect s.maxDepth
  once : (s.order.toList.map (·.index)).Nodup
  listed : ∀ i, i ∈ s.order.toList.map (·.index) ↔ ∃ d, Arrives code effect i d
  /-- The first visit comes from nowhere, and every other one from a visit before it. -/
  follows : ∀ before v rest, s.order.toList = before ++ v :: rest →
    before = [] ∧ v = ⟨0, none⟩ ∨
      ∃ u ∈ before, v.origin = some u.index ∧ ∃ instruction, code[u.index]? = some instruction ∧
        v.index ∈ instruction.op.successors u.index code.size

/-- Some way runs into the error. -/
def Witnessed : ProfileError → Prop
  | .inconsistent index expected found =>
    Arrives code effect index expected ∧ Arrives code effect index found ∧ expected ≠ found
  | .underflow index pops depth => Arrives code effect index depth ∧ ∃ instruction,
      code[index]? = some instruction ∧ (effect index instruction.op).1 = pops ∧ depth < pops
  | .targetOutOfRange index target => ∃ depth instruction, Arrives code effect index depth ∧
      code[index]? = some instruction ∧ (effect index instruction.op).1 ≤ depth ∧
      target ∈ instruction.op.targets ∧ code.size ≤ target

end

section
variable {s : StackProfile} {v : Pending}

theorem Witnessed.not_balanced (h : Witnessed code effect e) : ¬ Balanced code effect := by
  intro hb
  cases e with
  | inconsistent index expected found =>
    obtain ⟨h₁, h₂, hne⟩ := h
    exact hne (hb.unique index expected found h₁ h₂)
  | underflow index pops depth =>
    obtain ⟨harrives, instruction, hcode, rfl, hlt⟩ := h
    have := hb.takes index depth instruction harrives hcode
    omega
  | targetOutOfRange index target =>
    obtain ⟨depth, instruction, harrives, hcode, -, hmem, hle⟩ := h
    have := hb.targets index depth instruction harrives hcode target hmem
    omega

/-! ## No way is missed -/

/-- **Every way leads to a depth of the profile**, by induction on the way. -/
theorem Describes.depth_of_arrives (h : Describes code effect s) (ha : Arrives code effect i d) :
    s.depth? i = some d := by
  induction ha with
  | start inside => exact h.start inside
  | @step i j depth instruction before there takes next ih =>
    obtain ⟨instruction', hfits, hnext⟩ := h.fits i depth ih
    obtain rfl := Option.some.inj (there.symm.trans hfits.there)
    exact hnext j next

theorem Describes.fits_of_arrives (h : Describes code effect s) (ha : Arrives code effect i d)
    {instruction : Instruction} (hcode : code[i]? = some instruction) :
    Fits code effect s.maxDepth i d instruction := by
  obtain ⟨instruction', hfits, -⟩ := h.fits i d (h.depth_of_arrives ha)
  obtain rfl := Option.some.inj (hcode.symm.trans hfits.there)
  exact hfits

theorem Describes.balanced (h : Describes code effect s) : Balanced code effect where
  unique i d d' h₁ h₂ := by
    have h₁ := h.depth_of_arrives h₁
    rw [h.depth_of_arrives h₂] at h₁
    exact (Option.some.inj h₁).symm
  takes i d instruction ha hcode := (h.fits_of_arrives ha hcode).takes
  targets i d instruction ha hcode := (h.fits_of_arrives ha hcode).targets

/-! ## What is visited is on a way -/

variable (code effect) in
/-- What is visited or pending is on some way, and every instruction is visited once. -/
structure Rooted (pending : List Pending) (s : StackProfile) : Prop where
  visited : ∀ i d, s.depth? i = some d → Arrives code effect i d
  pending : ∀ v ∈ pending, Arrives code effect v.visit.index v.depth
  once : (s.order.toList.map (·.index)).Nodup
  greatest : s.maxDepth = 0 ∨ Occurs code effect s.maxDepth

theorem Occurs.max {a b : Nat} (ha : Occurs code effect a) (hb : Occurs code effect b) :
    Occurs code effect (max a b) := by
  rcases Nat.le_total a b with hle | hle
  · rwa [Nat.max_eq_right hle]
  · rwa [Nat.max_eq_left hle]

/-- **A visit** that goes through keeps what is visited and pending on the ways. -/
theorem rooted_enter {s' : StackProfile} {pending next : List Pending}
    (h : Rooted code effect (v :: pending) s) (hw : Walked code effect (v :: pending) s)
    (henter : enter code effect s v = .ok (s', next)) : Rooted code effect (pending ++ next) s' := by
  have harrives := h.pending v mem_cons_self
  have hrest : ∀ u ∈ pending, Arrives code effect u.visit.index u.depth := fun u hu =>
    h.pending u (mem_cons_of_mem v hu)
  rcases enter_cases henter with ⟨rfl, rfl, -⟩ |
    ⟨instruction, hnew, hcode, hpops, htargets, rfl, rfl⟩
  · simpa using ⟨h.visited, hrest, h.once, h.greatest⟩
  have hlt : v.visit.index < s.depths.size := by
    rw [hw.size]
    exact (Array.getElem?_eq_some_iff.1 hcode).1
  refine ⟨fun i d hd => ?_, fun u hu => ?_, ?_, .inr ?_⟩
  · rw [depth?_set hlt] at hd
    split at hd
    · rename_i hi
      cases hd
      exact hi ▸ harrives
    · exact h.visited i d hd
  · rcases mem_append.1 hu with hu | hu
    · exact hrest u hu
    · obtain ⟨j, hj, rfl⟩ := mem_map.1 hu
      exact .step harrives hcode hpops hj
  · -- an instruction without a depth is not listed
    simp only [Array.toList_push, map_append, map_cons, map_nil]
    refine nodup_append.2 ⟨h.once, by simp, fun i hi j hj => ?_⟩
    rintro rfl
    obtain ⟨u, hu, hindex⟩ := mem_map.1 hi
    have hsome := (hw.listed i).2 ⟨u, Array.mem_toList_iff.1 hu, hindex⟩
    simp only [mem_singleton] at hj
    simp [hj, hnew] at hsome
  · have hbefore : Occurs code effect v.depth := ⟨_, _, _, harrives, hcode, .inl rfl⟩
    have hafter : Occurs code effect (after effect v.visit.index instruction.op v.depth) :=
      ⟨_, _, _, harrives, hcode, .inr rfl⟩
    rcases h.greatest with hzero | hoccurs
    · simpa [hzero] using hbefore.max hafter
    · exact hoccurs.max (hbefore.max hafter)

theorem witnessed_of_enter {pending : List Pending}
    (h : Rooted code effect (v :: pending) s) (henter : enter code effect s v = .error e) :
    Witnessed code effect e := by
  have harrives := h.pending v mem_cons_self
  unfold StackProfile.enter at henter
  cases hd : s.depth? v.visit.index with
  | some known =>
    simp only [hd] at henter
    split at henter
    · cases henter
    · rename_i hne
      cases henter
      exact ⟨h.visited _ _ hd, harrives, hne⟩
  | none =>
    cases hc : code[v.visit.index]? with
    | none =>
      simp only [hd, hc] at henter
      cases henter
    | some instruction =>
      simp only [hd, hc] at henter
      split at henter
      · rename_i hlt
        cases henter
        exact ⟨harrives, instruction, hc, rfl, hlt⟩
      · cases ht : instruction.op.targets.find? (code.size ≤ ·) with
        | none => simp [ht] at henter
        | some target =>
          simp only [ht] at henter
          cases henter
          refine ⟨v.depth, instruction, harrives, hc, by omega, mem_of_find?_eq_some ht, ?_⟩
          simpa using find?_some ht

/-! ## The walk -/

theorem rooted_start (inside : 0 < code.size) : Rooted code effect [⟨⟨0, none⟩, 0⟩]
    { depths := Array.replicate code.size none } := by
  refine ⟨fun i d hd => ?_, fun v hv => ?_, by simp, .inl rfl⟩
  · rw [depth?_replicate] at hd
    cases hd
  · rw [mem_singleton.1 hv]
    exact .start inside

/-- **A profile is rooted**, and an error is met on some way. -/
theorem analyze_cases (inside : 0 < code.size) :
    (∀ s, analyze code effect = .ok s →
      ∃ rest, Walked code effect rest s ∧ Rooted code effect rest s) ∧
    ∀ e, analyze code effect = .error e → Witnessed code effect e := by
  have hwalked : Walked code effect _ _ := walked_start inside
  have hrooted : Rooted code effect _ _ := rooted_start inside
  rw [← Queue.toList_ofList [(⟨⟨0, none⟩, 0⟩ : Pending)]] at hwalked hrooted
  have hwalk := explore_keeps
    (P := fun _ pending s => Walked code effect pending s ∧ Rooted code effect pending s)
    (fun hs henter => ⟨walked_enter hs.1 henter, rooted_enter hs.2 hs.1 henter⟩)
    (visitBound code) ⟨hwalked, hrooted⟩
  rw [analyze_of_size_pos inside]
  refine ⟨fun s hs => ?_, fun e he => ?_⟩
  · obtain ⟨-, rest, hs, -⟩ := hwalk.1 s hs
    exact ⟨rest, hs⟩
  obtain ⟨-, v, rest, s, hs, henter⟩ := hwalk.2 e he
  exact witnessed_of_enter hs.2 henter

theorem not_arrives_of_size_eq_zero (hzero : code.size = 0) : ¬ Arrives code effect i d := by
  intro ha
  induction ha with
  | start inside => omega
  | step before there takes next ih => exact ih

/-- The first visit comes from nowhere, and no other one does: it would be to the same
instruction. -/
theorem follows_cases {order before rest : List Visit} {v : Visit}
    (hfollows : ∀ before v rest, order = before ++ v :: rest → Follows code before v)
    (honce : (order.map (·.index)).Nodup) (horder : order = before ++ v :: rest) :
    before = [] ∧ v = ⟨0, none⟩ ∨
      ∃ u ∈ before, v.origin = some u.index ∧ ∃ instruction, code[u.index]? = some instruction ∧
        v.index ∈ instruction.op.successors u.index code.size := by
  have hv := hfollows before v rest horder
  obtain ⟨index, origin⟩ := v
  cases origin with
  | some origin =>
    obtain ⟨u, hu, hindex, hcode⟩ := hv
    exact .inr ⟨u, hu, by rw [hindex], hindex ▸ hcode⟩
  | none =>
    have hindex : index = 0 := hv
    subst hindex
    cases before with
    | nil => exact .inl ⟨rfl, rfl⟩
    | cons first tail =>
      have hfirst := hfollows [] first (tail ++ ⟨0, none⟩ :: rest) horder
      obtain ⟨j, origin⟩ := first
      cases origin with
      | some origin =>
        obtain ⟨u, hu, -⟩ := hfirst
        cases hu
      | none =>
        have hj : j = 0 := hfirst
        simp [horder, hj] at honce

theorem witnessed_of_analyze (h : analyze code effect = .error e) : Witnessed code effect e := by
  rcases Nat.eq_zero_or_pos code.size with hzero | hpos
  · rw [analyze_of_size_eq_zero hzero] at h
    cases h
  · exact (analyze_cases hpos).2 e h

theorem exact_of_size_eq_zero (hzero : code.size = 0) :
    Exact code effect { depths := Array.replicate code.size none } := by
  have hnone : ∀ i d, ¬ Arrives code effect i d := fun i d => not_arrives_of_size_eq_zero hzero
  refine ⟨Array.size_replicate, fun i d => ?_, ?_, ?_, by simp, ?_, fun before v rest h => ?_⟩
  · simp [hnone, hzero]
  · rintro depth ⟨i, d, instruction, ha, -⟩
    exact absurd ha (hnone i d)
  · rw [if_pos hzero]
  · simp [hnone]
  · simp at h

/-- **The profile of a body says where its ways lead.** -/
theorem exact_of_analyze (h : analyze code effect = .ok s) : Exact code effect s := by
  rcases Nat.eq_zero_or_pos code.size with hzero | hpos
  · rw [analyze_of_size_eq_zero hzero] at h
    cases h
    exact exact_of_size_eq_zero hzero
  obtain ⟨rest, hw, hr⟩ := (analyze_cases hpos).1 s h
  have hd := describes_of_analyze h
  have hdepth : ∀ i d, s.depth? i = some d ↔ Arrives code effect i d := fun i d =>
    ⟨hr.visited i d, hd.depth_of_arrives⟩
  refine ⟨hw.size, fun i d => ?_, ?_, ?_, hr.once, fun i => ?_, fun before v rest hsplit =>
    follows_cases hd.follows hr.once hsplit⟩
  · rw [← hdepth, depth?, Option.join_eq_some_iff]
  · rintro depth ⟨i, d, instruction, ha, hcode, rfl | rfl⟩
    · exact (hd.fits_of_arrives ha hcode).before
    · exact (hd.fits_of_arrives ha hcode).leaves
  · rw [if_neg (by omega)]
    rcases hr.greatest with hmax | hmax
    · -- nothing is deeper than the empty stack at the start
      rw [hmax]
      exact ⟨0, 0, code[0], .start hpos, Array.getElem?_eq_getElem hpos, .inl rfl⟩
    · exact hmax
  · simp [mem_map, Array.mem_toList_iff, ← hd.listed, Option.isSome_iff_exists, hdepth]

end

/-- **The analysis is exact.** A body has a profile if and only if all ways through it agree, the
profile says where they lead, and an error is one that some way runs into. -/
theorem analyze_exact (code : Array Instruction) (effect : Nat → Op → Nat × Nat) :
    ((∃ s, analyze code effect = .ok s) ↔ Balanced code effect) ∧
    (∀ s, analyze code effect = .ok s → Exact code effect s) ∧
    ∀ e, analyze code effect = .error e → Witnessed code effect e := by
  refine ⟨⟨?_, fun hb => ?_⟩, fun s h => exact_of_analyze h, fun e h => witnessed_of_analyze h⟩
  · rintro ⟨s, h⟩
    exact (describes_of_analyze h).balanced
  · cases h : analyze code effect with
    | ok s => exact ⟨s, rfl⟩
    | error e => exact absurd hb (witnessed_of_analyze h).not_balanced

end StackProfile

end DeviceCode
