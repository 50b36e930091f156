import DeviceCode.Proofs.Outcome
import DeviceCode.StackProfile

/-!
# What a stack profile says

`StackProfile.Describes code effect s`: the depths of `s` belong to the body. The first instruction
starts on an empty stack, every instruction that is reached finds what it takes, its targets lie in
the body and its successors are reached with what it leaves. Main statement: `describes_of_analyze`,
the profile of a body describes it.

The walk visits what is pending, and `Walked` is its invariant: what holds of the visited
instructions holds up to the visits that are still pending. The bound on the visits is never used
up, because a visit either takes one away or is the first of its instruction (`outstanding`).
-/

namespace DeviceCode

open Queue

open List

variable {index depth : Nat} {code : Array Instruction} {v : Pending} {instruction : Instruction}
  {s s' : StackProfile} {next pending : List Pending}

namespace Queue

variable {α : Type} {q : Queue α}

theorem toList_of_pop?_none (h : q.pop? = none) : q.toList = [] := by
  have hpop := q.pop?_eq
  rw [h] at hpop
  cases hl : q.toList with
  | nil => rfl
  | cons x rest => simp [hl] at hpop

theorem toList_of_pop? {x : α} {rest : Queue α} (h : q.pop? = some (x, rest)) :
    q.toList = x :: rest.toList := by
  have hpop := q.pop?_eq
  rw [h] at hpop
  cases hl : q.toList with
  | nil => simp [hl] at hpop
  | cons y tail =>
    simp only [hl, Option.map_some, head?_cons, tail_cons, Option.some.injEq,
      Prod.mk.injEq] at hpop
    rw [hpop.1, hpop.2]

end Queue

namespace Op

theorem length_successors_le (op : Op) (index len : Nat) :
    (op.successors index len).length ≤ op.targets.length + 1 := by
  unfold successors
  split <;> simp

theorem lt_of_mem_successors {op : Op} {len : Nat} (ht : ∀ t ∈ op.targets, t < len) {j : Nat}
    (hj : j ∈ op.successors index len) : j < len := by
  rcases mem_append.1 hj with hj | hj
  · exact ht j hj
  · split at hj
    · rename_i hnext
      simp only [Bool.and_eq_true, decide_eq_true_eq] at hnext
      rw [mem_singleton] at hj
      omega
    · simp at hj

end Op

namespace StackProfile

/-- The depth after an instruction that starts at a depth. -/
def after (effect : Nat → Op → Nat × Nat) (index : Nat) (op : Op) (depth : Nat) : Nat :=
  depth - (effect index op).1 + (effect index op).2

/-- A visit is the first one, or it comes from an instruction that was visited before. -/
def Follows (code : Array Instruction) (visited : List Visit) (v : Visit) : Prop :=
  match v.origin with
  | none => v.index = 0
  | some origin => ∃ u ∈ visited, u.index = origin ∧ ∃ instruction, code[origin]? = some instruction ∧
      v.index ∈ instruction.op.successors origin code.size

theorem Follows.mono {visited visited' : List Visit} {v : Visit} (h : Follows code visited v)
    (hsub : visited ⊆ visited') : Follows code visited' v := by
  obtain ⟨index, origin⟩ := v
  cases origin with
  | none => exact h
  | some origin =>
    obtain ⟨u, hu, h⟩ := h
    exact ⟨u, hsub hu, h⟩

/-- The instruction at an index fits a depth, before and after it. -/
structure Fits (code : Array Instruction) (effect : Nat → Op → Nat × Nat) (maxDepth index depth : Nat)
    (instruction : Instruction) : Prop where
  there : code[index]? = some instruction
  takes : (effect index instruction.op).1 ≤ depth
  targets : ∀ t ∈ instruction.op.targets, t < code.size
  before : depth ≤ maxDepth
  leaves : after effect index instruction.op depth ≤ maxDepth

theorem Fits.mono {effect : Nat → Op → Nat × Nat} {bound bound' : Nat}
    (h : Fits code effect bound index depth instruction) (hle : bound ≤ bound') :
    Fits code effect bound' index depth instruction :=
  { h with
    before := Nat.le_trans h.before hle
    leaves := Nat.le_trans h.leaves hle }

/-- The depths of the profile belong to the body. -/
structure Describes (code : Array Instruction) (effect : Nat → Op → Nat × Nat) (s : StackProfile) :
    Prop where
  start : 0 < code.size → s.depth? 0 = some 0
  fits : ∀ i d, s.depth? i = some d → ∃ instruction, Fits code effect s.maxDepth i d instruction ∧
    ∀ j ∈ instruction.op.successors i code.size,
      s.depth? j = some (after effect i instruction.op d)
  listed : ∀ i, (s.depth? i).isSome ↔ ∃ v ∈ s.order, v.index = i
  follows : ∀ before v rest, s.order.toList = before ++ v :: rest → Follows code before v

/-! ## One visit -/

/-- The instruction is visited at that depth, or it is to be. -/
def Reached (s : StackProfile) (pending : List Pending) (index depth : Nat) : Prop :=
  s.depth? index = some depth ∨ ∃ v ∈ pending, v.visit.index = index ∧ v.depth = depth

/-- The invariant of the walk. -/
structure Walked (code : Array Instruction) (effect : Nat → Op → Nat × Nat) (pending : List Pending)
    (s : StackProfile) : Prop where
  size : s.depths.size = code.size
  start : Reached s pending 0 0
  fits : ∀ i d, s.depth? i = some d → ∃ instruction, Fits code effect s.maxDepth i d instruction ∧
    ∀ j ∈ instruction.op.successors i code.size,
      Reached s pending j (after effect i instruction.op d)
  listed : ∀ i, (s.depth? i).isSome ↔ ∃ v ∈ s.order, v.index = i
  follows : ∀ before v rest, s.order.toList = before ++ v :: rest → Follows code before v
  inside : ∀ v ∈ pending, v.visit.index < code.size
  pendingFollows : ∀ v ∈ pending, Follows code s.order.toList v.visit

section
variable {effect : Nat → Op → Nat × Nat}

theorem enter_cases (h : enter code effect s v = .ok (s', next)) :
    (s' = s ∧ next = [] ∧ (s.depth? v.visit.index = some v.depth ∨ code[v.visit.index]? = none)) ∨
      ∃ instruction, s.depth? v.visit.index = none ∧ code[v.visit.index]? = some instruction ∧
        (effect v.visit.index instruction.op).1 ≤ v.depth ∧
        (∀ t ∈ instruction.op.targets, t < code.size) ∧
        s' = { depths := s.depths.setIfInBounds v.visit.index (some v.depth)
               order := s.order.push v.visit
               maxDepth := max s.maxDepth
                (max v.depth (after effect v.visit.index instruction.op v.depth)) } ∧
        next = (instruction.op.successors v.visit.index code.size).map fun j =>
          ⟨⟨j, some v.visit.index⟩, after effect v.visit.index instruction.op v.depth⟩ := by
  unfold enter at h
  cases hd : s.depth? v.visit.index with
  | some known =>
    simp only [hd] at h
    split at h
    · rename_i heq
      cases h
      exact .inl ⟨rfl, rfl, .inl (by rw [heq])⟩
    · cases h
  | none =>
    cases hc : code[v.visit.index]? with
    | none =>
      simp only [hd, hc] at h
      cases h
      exact .inl ⟨rfl, rfl, .inr rfl⟩
    | some instruction =>
      simp only [hd, hc] at h
      split at h
      · cases h
      · rename_i hpops
        cases ht : instruction.op.targets.find? (code.size ≤ ·) with
        | some t => simp [ht] at h
        | none =>
          simp only [ht] at h
          cases h
          refine .inr ⟨instruction, rfl, rfl, Nat.le_of_not_lt hpops, fun t hmem => ?_, rfl, rfl⟩
          simpa using find?_eq_none.1 ht t hmem

theorem depth?_set {depths : Array (Option Nat)} (hlt : index < depths.size) (order : Array Visit)
    (bound i : Nat) :
    StackProfile.depth? ⟨depths.setIfInBounds index (some depth), order, bound⟩ i =
      if i = index then some depth else depths[i]?.join := by
  unfold depth?
  rw [Array.getElem?_setIfInBounds]
  by_cases hi : index = i
  · rw [if_pos hi, if_pos hi.symm, if_pos (hi ▸ hlt)]
    rfl
  · rw [if_neg hi, if_neg (Ne.symm hi)]

theorem Walked.known (h : Walked code effect (v :: pending) s)
    (hv : s.depth? v.visit.index = some v.depth) : Walked code effect pending s := by
  have hreached : ∀ i d, Reached s (v :: pending) i d → Reached s pending i d := by
    rintro i d (hi | ⟨u, hu, hi, hd⟩)
    · exact .inl hi
    · rcases mem_cons.1 hu with rfl | hu
      · exact .inl (by rw [← hi, ← hd, hv])
      · exact .inr ⟨u, hu, hi, hd⟩
  refine { h with
    start := hreached 0 0 h.start
    fits := fun i d hd => ?_
    inside := fun u hu => h.inside u (mem_cons_of_mem v hu)
    pendingFollows := fun u hu => h.pendingFollows u (mem_cons_of_mem v hu) }
  obtain ⟨instruction, hfits, hnext⟩ := h.fits i d hd
  exact ⟨instruction, hfits, fun j hj => hreached j _ (hnext j hj)⟩

theorem Walked.entered (h : Walked code effect (v :: pending) s)
    (hnew : s.depth? v.visit.index = none) (hcode : code[v.visit.index]? = some instruction)
    (hpops : (effect v.visit.index instruction.op).1 ≤ v.depth)
    (htargets : ∀ t ∈ instruction.op.targets, t < code.size) :
    Walked code effect
      (pending ++ (instruction.op.successors v.visit.index code.size).map fun j =>
        ⟨⟨j, some v.visit.index⟩, after effect v.visit.index instruction.op v.depth⟩)
      { depths := s.depths.setIfInBounds v.visit.index (some v.depth)
        order := s.order.push v.visit
        maxDepth := max s.maxDepth
          (max v.depth (after effect v.visit.index instruction.op v.depth)) } := by
  have hlt : v.visit.index < s.depths.size := by
    rw [h.size]
    exact (Array.getElem?_eq_some_iff.1 hcode).1
  -- what was reached or pending is reached or pending still
  have hreached : ∀ {next : List Pending} {i d : Nat}, Reached s (v :: pending) i d →
      Reached ⟨s.depths.setIfInBounds v.visit.index (some v.depth), s.order.push v.visit,
        max s.maxDepth (max v.depth (after effect v.visit.index instruction.op v.depth))⟩
        (pending ++ next) i d := by
    rintro next i d (hi | ⟨u, hu, hi, hd⟩)
    · refine .inl ?_
      rw [depth?_set hlt, if_neg]
      · exact hi
      · rintro rfl
        rw [hnew] at hi
        cases hi
    · rcases mem_cons.1 hu with rfl | hu
      · refine .inl ?_
        rw [depth?_set hlt, if_pos hi.symm, hd]
      · exact .inr ⟨u, mem_append_left _ hu, hi, hd⟩
  have horder : s.order.toList ⊆ (s.order.push v.visit).toList := by
    rw [Array.toList_push]
    exact subset_append_left _ _
  refine ⟨by rw [Array.size_setIfInBounds, h.size], hreached h.start, fun i d hd => ?_,
    fun i => ?_, fun before u rest hsplit => ?_, fun u hu => ?_, fun u hu => ?_⟩
  · rw [depth?_set hlt] at hd
    split at hd
    · rename_i hi
      subst hi
      cases hd
      refine ⟨instruction, ⟨hcode, hpops, htargets, ?_, ?_⟩, fun j hj => ?_⟩
      · exact Nat.le_trans (Nat.le_max_left _ _) (Nat.le_max_right _ _)
      · exact Nat.le_trans (Nat.le_max_right _ _) (Nat.le_max_right _ _)
      · exact .inr ⟨_, mem_append_right _ (mem_map.2 ⟨j, hj, rfl⟩), rfl, rfl⟩
    · obtain ⟨other, hfits, hnext⟩ := h.fits i d hd
      exact ⟨other, hfits.mono (Nat.le_max_left _ _), fun j hj => hreached (hnext j hj)⟩
  · rw [depth?_set hlt]
    by_cases hi : i = v.visit.index
    · rw [if_pos hi]
      exact ⟨fun _ => ⟨v.visit, Array.mem_push_self, hi.symm⟩, fun _ => rfl⟩
    · rw [if_neg hi]
      refine (h.listed i).trans ⟨?_, ?_⟩
      · rintro ⟨u, hu, hui⟩
        exact ⟨u, Array.mem_push_of_mem _ hu, hui⟩
      · rintro ⟨u, hu, hui⟩
        rcases Array.mem_push.1 hu with hu | rfl
        · exact ⟨u, hu, hui⟩
        · exact absurd hui.symm hi
  · rw [Array.toList_push] at hsplit
    rcases eq_nil_or_concat rest with rfl | ⟨rest', last, rfl⟩
    · obtain ⟨rfl, hu⟩ := append_inj' hsplit rfl
      cases hu
      exact h.pendingFollows v mem_cons_self
    · rw [concat_eq_append, ← cons_append, ← append_assoc] at hsplit
      exact h.follows before u rest' (append_inj' hsplit rfl).1
  · rcases mem_append.1 hu with hu | hu
    · exact h.inside u (mem_cons_of_mem v hu)
    · obtain ⟨j, hj, rfl⟩ := mem_map.1 hu
      exact Op.lt_of_mem_successors htargets hj
  · rcases mem_append.1 hu with hu | hu
    · exact (h.pendingFollows u (mem_cons_of_mem v hu)).mono horder
    · obtain ⟨j, hj, rfl⟩ := mem_map.1 hu
      exact ⟨v.visit, by simp, rfl, instruction, hcode, hj⟩

/-- **A visit** that goes through keeps the walk's invariant. -/
theorem walked_enter (h : Walked code effect (v :: pending) s)
    (henter : enter code effect s v = .ok (s', next)) :
    Walked code effect (pending ++ next) s' := by
  rcases enter_cases henter with ⟨rfl, rfl, hknown⟩ |
    ⟨instruction, hnew, hcode, hpops, htargets, rfl, rfl⟩
  · have hinside := h.inside v mem_cons_self
    rcases hknown with hknown | hnone
    · simpa using h.known hknown
    · simp only [Array.getElem?_eq_none_iff] at hnone
      omega
  · exact h.entered hnew hcode hpops htargets

/-! ## The walk -/

/-- The visits that the instructions without a depth can still bring. -/
def outstanding : List Instruction → List (Option Nat) → Nat
  | i :: code, none :: depths => (i.op.targets.length + 1) + outstanding code depths
  | _ :: code, some _ :: depths => outstanding code depths
  | _, _ => 0

theorem outstanding_set : ∀ {code : List Instruction} {depths : List (Option Nat)} {index : Nat}
    {i : Instruction} (d : Nat), code[index]? = some i → depths[index]? = some none →
    outstanding code depths =
      (i.op.targets.length + 1) + outstanding code (depths.set index (some d))
  | [], _, _, _, _, hc, _ => by simp at hc
  | _, [], _, _, _, _, hd => by simp at hd
  | i :: code, depth :: depths, 0, _, d, hc, hd => by
    cases hc
    cases hd
    rfl
  | i :: code, depth :: depths, index + 1, j, d, hc, hd => by
    have hc : code[index]? = some j := hc
    have ih := outstanding_set d hc hd
    cases depth with
    | none =>
      simp only [set_cons_succ, outstanding]
      omega
    | some known =>
      exact ih

theorem outstanding_replicate (code : List Instruction) (n : Nat) :
    code.foldl (fun n i => n + (i.op.targets.length + 1)) n =
      n + outstanding code (List.replicate code.length none) := by
  induction code generalizing n with
  | nil => rfl
  | cons i code ih =>
    rw [foldl_cons, ih, length_cons, replicate_succ, outstanding]
    omega

/-- What every visit keeps, with what is left of the bound, holds at the end of the walk and before the
visit that fails. -/
theorem explore_keeps {P : Nat → List Pending → StackProfile → Prop}
    (hstep : ∀ {n v pending s s' next}, P (n + 1) (v :: pending) s →
      enter code effect s v = .ok (s', next) → P n (pending ++ next) s') (n : Nat) :
    ∀ {pending : Queue Pending} {s : StackProfile}, P n pending.toList s →
    (∀ s', explore code effect n pending s = .ok s' → ∃ m rest, P m rest s' ∧ (m = 0 ∨ rest = [])) ∧
    ∀ e, explore code effect n pending s = .error e →
      ∃ m v rest s', P m (v :: rest) s' ∧ enter code effect s' v = .error e := by
  induction n with
  | zero =>
    intro pending s hs
    refine ⟨fun s' h => ?_, fun e h => ?_⟩
    · cases h
      exact ⟨0, _, hs, .inl rfl⟩
    · cases h
  | succ n ih =>
    intro pending s hs
    rw [explore]
    cases hp : pending.pop? with
    | none =>
      refine ⟨fun s' h => ?_, fun e h => ?_⟩
      · cases h
        exact ⟨n + 1, _, hs, .inr (toList_of_pop?_none hp)⟩
      · cases h
    | some found =>
      obtain ⟨v, rest⟩ := found
      rw [toList_of_pop? hp] at hs
      cases henter : enter code effect s v with
      | error e =>
        refine ⟨fun s' h => ?_, fun e' h => ?_⟩
        · simp only [henter] at h
          cases h
        · simp only [henter] at h
          cases h
          exact ⟨n + 1, v, rest.toList, s, hs, henter⟩
      | ok result =>
        obtain ⟨s₁, next⟩ := result
        simp only [henter]
        refine ih (?_ : P n (rest.pushAll next).toList s₁)
        rw [toList_pushAll]
        exact hstep hs henter

/-- **The walk ends with nothing pending.** -/
theorem walked_explore {n : Nat} {pending : Queue Pending} (hs : Walked code effect pending.toList s)
    (hn : pending.toList.length + outstanding code.toList s.depths.toList ≤ n)
    (h : explore code effect n pending s = .ok s') : Walked code effect [] s' := by
  obtain ⟨m, rest, ⟨hwalked, hm⟩, hend⟩ : ∃ m rest, _ ∧ (m = 0 ∨ rest = []) := by
    refine (explore_keeps (P := fun n pending s => Walked code effect pending s ∧
      pending.length + outstanding code.toList s.depths.toList ≤ n) ?_ n ⟨hs, hn⟩).1 s' h
    rintro n v pending s s' next ⟨hs, hn⟩ henter
    refine ⟨walked_enter hs henter, ?_⟩
    rw [length_cons] at hn
    rcases enter_cases henter with ⟨rfl, rfl, -⟩ | ⟨instruction, hnew, hcode, -, -, rfl, rfl⟩
    · rw [append_nil]
      omega
    · have hsuccessors := instruction.op.length_successors_le v.visit.index code.size
      have hlt : v.visit.index < s.depths.size := by
        rw [hs.size]
        exact (Array.getElem?_eq_some_iff.1 hcode).1
      have hnone : s.depths.toList[v.visit.index]? = some none := by
        rw [Array.getElem?_toList, Array.getElem?_eq_getElem hlt]
        unfold depth? at hnew
        rw [Array.getElem?_eq_getElem hlt, Option.join_some] at hnew
        rw [hnew]
      rw [← Array.getElem?_toList] at hcode
      have hout := outstanding_set v.depth hcode hnone
      rw [length_append, length_map, Array.toList_setIfInBounds]
      omega
  obtain rfl | rfl := hend
  · rwa [length_eq_zero_iff.1 (by omega : rest.length = 0)] at hwalked
  · exact hwalked

theorem depth?_replicate (n i : Nat) :
    StackProfile.depth? { depths := Array.replicate n none } i = none := by
  unfold depth?
  rw [Array.getElem?_replicate]
  split <;> rfl

theorem walked_start (inside : 0 < code.size) : Walked code effect [⟨⟨0, none⟩, 0⟩]
    { depths := Array.replicate code.size none } := by
  refine ⟨Array.size_replicate, .inr ⟨_, mem_singleton_self _, rfl, rfl⟩,
    fun i d hd => ?_, fun i => ?_, fun before v rest hsplit => ?_, fun v hv => ?_, fun v hv => ?_⟩
  · rw [depth?_replicate] at hd
    cases hd
  · rw [depth?_replicate]
    simp
  · simp at hsplit
  · rw [mem_singleton.1 hv]
    exact inside
  · rw [mem_singleton.1 hv]
    exact rfl

theorem analyze_of_size_pos (inside : 0 < code.size) :
    analyze code effect = explore code effect (visitBound code) (.ofList [⟨⟨0, none⟩, 0⟩])
      { depths := Array.replicate code.size none } := by
  unfold analyze
  rw [if_neg]
  rw [Array.isEmpty_iff_size_eq_zero]
  omega

theorem analyze_of_size_eq_zero (hzero : code.size = 0) :
    analyze code effect = .ok { depths := Array.replicate code.size none } := by
  unfold analyze
  rw [if_pos]
  simpa using hzero

/-- **The profile of a body describes it.** -/
theorem describes_of_analyze (h : analyze code effect = .ok s) : Describes code effect s := by
  rcases Nat.eq_zero_or_pos code.size with hzero | hpos
  · rw [analyze_of_size_eq_zero hzero] at h
    cases h
    refine ⟨fun hpos => by omega, fun i d hd => ?_, fun i => ?_, fun before v rest hsplit => ?_⟩
    · rw [depth?_replicate] at hd
      cases hd
    · rw [depth?_replicate]
      simp
    · simp at hsplit
  · rw [analyze_of_size_pos hpos] at h
    have hbound : (ofList [(⟨⟨0, none⟩, 0⟩ : Pending)]).toList.length +
        outstanding code.toList (Array.replicate code.size (none : Option Nat)).toList ≤
          visitBound code := by
      unfold visitBound
      rw [← Array.foldl_toList, outstanding_replicate]
      simp
    have hend := walked_explore (by exact walked_start hpos) hbound h
    have hdepth : ∀ i d, Reached s [] i d → s.depth? i = some d := by
      rintro i d (hi | ⟨v, hv, -⟩)
      · exact hi
      · cases hv
    refine ⟨fun _ => hdepth 0 0 hend.start, fun i d hd => ?_, hend.listed, hend.follows⟩
    obtain ⟨instruction, hfits, hnext⟩ := hend.fits i d hd
    exact ⟨instruction, hfits, fun j hj => hdepth j _ (hnext j hj)⟩

end

end StackProfile

end DeviceCode
