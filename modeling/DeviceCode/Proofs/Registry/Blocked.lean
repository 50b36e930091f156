import DeviceCode.Proofs.LinkedCode
import Mathlib.Data.Finset.Card

/-!
# Methods that cannot be written in C

The link blocks every method that calls a blocked one, round after round. A round that changes
something blocks a method, so the rounds come to an end before the bound does
(`callersBlocked_blockCallersWithin`): a method that is left calls no blocked one. Main statement:
`exists_plan_of_site`, in a linked build the methods that a planned method calls are planned.
-/

namespace DeviceCode

open List

variable {r r' : Registry} {i k : Nat} {m : CompiledMethod} {c : BuildContext}
  {ops : List LoweredOp}

namespace Registry

/-- A method that calls a blocked one is blocked. -/
def CallersBlocked (r : Registry) : Prop :=
  ∀ (i : Nat) m, r.methods[i]? = some m → m.cStatus.isBlocked = false →
    ∀ k ∈ m.callees, r.isBlocked k = false

/-- The methods that are not blocked. -/
def unblocked (r : Registry) : Finset Nat :=
  (Finset.range r.methods.size).filter fun i => r.isBlocked i = false

theorem mem_unblocked : i ∈ r.unblocked ↔ ∃ m, r.methods[i]? = some m ∧
    m.cStatus.isBlocked = false := by
  rw [unblocked, Finset.mem_filter, Finset.mem_range, isBlocked]
  constructor
  · rintro ⟨hlt, hblocked⟩
    have hm := Array.getElem?_eq_getElem hlt
    rw [hm] at hblocked
    exact ⟨_, hm, hblocked⟩
  · rintro ⟨m, hm, hblocked⟩
    rw [hm]
    exact ⟨(Array.getElem?_eq_some_iff.1 hm).1, hblocked⟩

section

theorem unblocked_block (hi : i ∈ r.unblocked) (reason : CObstacle) :
    (r.block i reason).unblocked.card < r.unblocked.card := by
  refine Finset.card_lt_card (Finset.ssubset_iff_of_subset (fun j hj => ?_) |>.2 ⟨i, hi, fun hmem => ?_⟩)
  · obtain ⟨m, hm, hblocked⟩ := mem_unblocked.1 hj
    rw [block, modifyMethod, Array.getElem?_modify] at hm
    split at hm
    · obtain ⟨m', hm', rfl⟩ := Option.map_eq_some_iff.1 hm
      refine mem_unblocked.2 ⟨m', hm', ?_⟩
      split at hblocked
      · exact hblocked
      · cases hblocked
    · exact mem_unblocked.2 ⟨m, hm, hblocked⟩
  · obtain ⟨m, hm, hblocked⟩ := mem_unblocked.1 hmem
    rw [block, modifyMethod, Array.getElem?_modify, if_pos rfl] at hm
    obtain ⟨m', hm', rfl⟩ := Option.map_eq_some_iff.1 hm
    split at hblocked
    · rename_i h
      rw [h] at hblocked
      cases hblocked
    · cases hblocked

/-- The method calls no blocked one, unless it is blocked itself. -/
def CallerBlocked (r : Registry) (i : Nat) : Prop :=
  ∀ m, r.methods[i]? = some m → m.cStatus.isBlocked = false → r.blockedCallee? m = none

theorem blockCaller_cases (state : Registry × Bool) (i : Nat) :
    blockCaller state i = state ∧ CallerBlocked state.1 i ∨
      i ∈ state.1.unblocked ∧ ∃ reason, blockCaller state i = (state.1.block i reason, true) := by
  unfold blockCaller
  dsimp only
  cases hm : state.1.methods[i]? with
  | none => exact .inl ⟨rfl, fun m hm' => by rw [hm] at hm'; cases hm'⟩
  | some m =>
    dsimp only
    cases hblocked : m.cStatus.isBlocked with
    | true =>
      refine .inl ⟨rfl, fun m' hm' hnot => ?_⟩
      rw [hm] at hm'
      cases hm'
      rw [hblocked] at hnot
      cases hnot
    | false =>
      cases hcallee : state.1.blockedCallee? m with
      | none =>
        refine .inl ⟨by simp, fun m' hm' _ => ?_⟩
        rw [hm] at hm'
        cases hm'
        exact hcallee
      | some callee =>
        exact .inr ⟨mem_unblocked.2 ⟨m, hm, hblocked⟩, .reachesBlocked callee.name, by simp⟩

/-- **A round** that changes nothing finds no method to block, and any other blocks one. -/
theorem blockCaller_round : ∀ (is : List Nat) (state : Registry × Bool),
    (is.foldl blockCaller state).1.unblocked.card ≤ state.1.unblocked.card ∧
      if (is.foldl blockCaller state).2 then
        state.2 = true ∨ (is.foldl blockCaller state).1.unblocked.card < state.1.unblocked.card
      else is.foldl blockCaller state = state ∧ ∀ i ∈ is, CallerBlocked state.1 i
  | [], state => by
    refine ⟨Nat.le_refl _, ?_⟩
    split
    · rename_i h
      exact .inl h
    · exact ⟨rfl, by simp⟩
  | i :: is, state => by
    rw [foldl_cons]
    obtain ⟨hle, hround⟩ := blockCaller_round is (blockCaller state i)
    obtain ⟨hsame, hcaller⟩ | ⟨hmem, reason, hblock⟩ := blockCaller_cases state i
    · rw [hsame] at hle hround ⊢
      refine ⟨hle, ?_⟩
      split
      · rename_i h
        rw [if_pos h] at hround
        exact hround
      · rename_i h
        rw [if_neg h] at hround
        refine ⟨hround.1, fun j hj => ?_⟩
        rcases mem_cons.1 hj with rfl | hj
        · exact hcaller
        · exact hround.2 j hj
    · have hlt := unblocked_block hmem reason
      rw [hblock] at hle hround ⊢
      have hless := Nat.lt_of_le_of_lt hle hlt
      refine ⟨Nat.le_of_lt hless, ?_⟩
      split
      · exact .inr hless
      · rename_i h
        rw [if_neg h] at hround
        rw [hround.1] at h
        exact absurd rfl h

theorem CallerBlocked.callees (h : CallerBlocked r i) (hm : r.methods[i]? = some m)
    (hm' : m.cStatus.isBlocked = false) (hk : k ∈ m.callees) : r.isBlocked k = false := by
  have hnone := h m hm hm'
  rw [blockedCallee?, Option.bind_eq_none_iff] at hnone
  cases hfind : m.callees.find? r.isBlocked with
  | none =>
    rw [find?_eq_none] at hfind
    exact Bool.not_eq_true _ ▸ hfind k hk
  | some callee =>
    have hblocked := find?_some hfind
    have hout := hnone callee hfind
    rw [isBlocked, hout] at hblocked
    cases hblocked

/-- **After enough rounds every caller of a blocked method is blocked.** -/
theorem callersBlocked_blockCallersWithin : ∀ (bound : Nat) (r : Registry),
    r.unblocked.card < bound → CallersBlocked (blockCallersWithin bound r)
  | 0, r, h => absurd h (Nat.not_lt_zero _)
  | n + 1, r, h => by
    obtain ⟨-, hround⟩ := blockCaller_round (range r.methods.size) (r, false)
    unfold blockCallersWithin
    split
    · rename_i r' heq
      rw [heq] at hround
      have hless : r'.unblocked.card < r.unblocked.card := hround.resolve_left (by simp)
      exact callersBlocked_blockCallersWithin n r' (by omega)
    · rename_i r' heq
      rw [heq] at hround
      simp only [Bool.false_eq_true, if_false, Prod.mk.injEq, and_true] at hround
      obtain ⟨rfl, hcallers⟩ := hround
      intro i m hm hblocked k hk
      have hi := mem_range.2 (Array.getElem?_eq_some_iff.1 hm).1
      exact (hcallers i hi).callees hm hblocked hk

theorem card_unblocked_le (r : Registry) : r.unblocked.card ≤ r.methods.size :=
  (Finset.card_filter_le _ _).trans (Finset.card_range _).le

theorem callersBlocked_blockCallers (r : Registry) : CallersBlocked r.blockCallers :=
  callersBlocked_blockCallersWithin _ r (Nat.lt_succ_of_le (card_unblocked_le r))

theorem blockCallersWithin_eq : ∀ {n n' : Nat} {r : Registry}, r.unblocked.card < n →
    r.unblocked.card < n' → blockCallersWithin n r = blockCallersWithin n' r
  | n + 1, n' + 1, r, hn, hn' => by
    obtain ⟨-, hround⟩ := blockCaller_round (range r.methods.size) (r, false)
    rw [blockCallersWithin, blockCallersWithin]
    split
    · rename_i r' heq
      rw [heq] at hround
      have hless : r'.unblocked.card < r.unblocked.card := hround.resolve_left (by simp)
      exact blockCallersWithin_eq (by omega) (by omega)
    · rfl

end

/-! ## Linked builds -/

/-- What blocking looks at in a method. -/
def standing (m : CompiledMethod) : List Nat × CStatus := (m.callees, m.cStatus)

theorem CallersBlocked.of_standing (h : CallersBlocked r)
    (hs : ∀ i : Nat, r'.methods[i]?.map standing = r.methods[i]?.map standing) :
    CallersBlocked r' := by
  have back : ∀ {i : Nat} {m : CompiledMethod}, r'.methods[i]? = some m → ∃ m',
      r.methods[i]? = some m' ∧ m'.callees = m.callees ∧ m'.cStatus = m.cStatus := by
    intro i m hm
    have hi := hs i
    rw [hm] at hi
    obtain ⟨m', hm', heq⟩ := Option.map_eq_some_iff.1 hi.symm
    exact ⟨m', hm', congrArg Prod.fst heq, congrArg Prod.snd heq⟩
  intro i m hm hblocked k hk
  obtain ⟨m₁, hm₁, hcallees, hstatus⟩ := back hm
  have hfree := h i m₁ hm₁ (hstatus ▸ hblocked) k (hcallees ▸ hk)
  cases hk' : r'.methods[k]? with
  | none => simp [isBlocked, hk']
  | some target =>
    obtain ⟨target₁, ht₁, -, hstatus'⟩ := back hk'
    simp only [isBlocked, ht₁] at hfree
    simp [isBlocked, hk', ← hstatus', hfree]

theorem standing_of_link {linked : Linked} (h : link c r = .ok linked r') :
    ∃ r₁, bindSlots c r = .ok linked.iterations r₁ ∧
      ∀ i : Nat, r'.methods[i]?.map standing = r₁.blockCallers.methods[i]?.map standing := by
  obtain ⟨r₁, s, t, hbind, -, -, hfold, -⟩ := link_ok h
  refine ⟨r₁, hbind, ?_⟩
  refine state_foldlM_ok (fun _ _ r' => ∀ i : Nat, r'.methods[i]?.map standing =
    r₁.blockCallers.methods[i]?.map standing) ?_ (fun _ => rfl) hfold
  intro done t₁ f r₂ t₂ r₃ ih hstep i
  obtain ⟨w, -, -, rfl⟩ := applyFixup_ok hstep
  rw [← ih i, Registry.patch, modifyMethod, Array.getElem?_modify]
  split
  · rw [Option.map_map]
    rfl
  · rfl

theorem callersBlocked_of_link {linked : Linked} (h : link c r = .ok linked r') :
    CallersBlocked r' := by
  obtain ⟨r₁, -, hstanding⟩ := standing_of_link h
  exact (callersBlocked_blockCallers r₁).of_standing hstanding

/-- No method is blocked. -/
def Free (r : Registry) : Prop := ∀ (i : Nat) m, r.methods[i]? = some m → m.cStatus.reason? = none

theorem Free.isBlocked (h : Free r) (i : Nat) : r.isBlocked i = false := by
  unfold Registry.isBlocked
  cases hm : r.methods[i]? with
  | none => rfl
  | some m => simp [CStatus.isBlocked, h i m hm]

theorem Free.blockCallers (h : Free r) : r.blockCallers = r := by
  have hcaller : ∀ i, blockCaller (r, false) i = (r, false) := by
    intro i
    unfold blockCaller
    dsimp only
    cases hm : r.methods[i]? with
    | none => rfl
    | some m =>
      have hnone : m.callees.find? r.isBlocked = none :=
        find?_eq_none.2 fun k _ => by simp [h.isBlocked k]
      simp [blockedCallee?, hnone]
  have hround : ∀ is : List Nat, is.foldl blockCaller (r, false) = (r, false) := by
    intro is
    induction is with
    | nil => rfl
    | cons i is ih => rw [foldl_cons, hcaller, ih]
  unfold Registry.blockCallers blockCallersWithin
  rw [hround]

theorem mem_callees_ofOps {o : LoweredOp} (ho : o ∈ ops) (hk : o.callee = some k) :
    k ∈ (Lowering.LoweredBody.ofOps {} ops).callees := by
  have hadd : ∀ {callees : List Nat} {callee : Option Nat} {j : Nat},
      j ∈ callees ∨ callee = some j → j ∈ Lowering.addCallee callees callee := by
    intro callees callee j h
    cases callee with
    | none => exact h.resolve_right (by simp)
    | some index =>
      rw [Lowering.addCallee]
      by_cases hmem : callees.contains index = true
      · rw [if_pos hmem]
        rcases h with h | h
        · exact h
        · cases h
          exact contains_iff_mem.1 hmem
      · rw [if_neg hmem, mem_append, mem_singleton]
        exact h.imp_right fun h => (Option.some.inj h).symm
  have fold : ∀ {ops : List LoweredOp} {callees : List Nat},
      (k ∈ callees ∨ ∃ o ∈ ops, o.callee = some k) →
      k ∈ ops.foldl (fun callees o => Lowering.addCallee callees o.callee) callees := by
    intro ops
    induction ops with
    | nil => exact fun h => h.resolve_right (by simp)
    | cons o ops ih =>
      intro callees h
      refine ih ?_
      rcases h with h | ⟨o', ho', hk⟩
      · exact .inl (hadd (.inl h))
      · rcases mem_cons.1 ho' with rfl | ho'
        · exact .inl (hadd (.inr hk))
        · exact .inr ⟨o', ho', hk⟩
  exact fold (.inr ⟨o, ho, hk⟩)

/-- **The methods that a method calls are planned**, unless it is blocked. -/
theorem Installed.exists_plan_of_site {t : TypeTables} {d : MethodDef} {body : Body} {l : Lowering}
    {value : Nat → Nat → LinkOperand → UInt16} (h : Installed c r t m d body l ops value)
    (hcallers : CallersBlocked r) {index : Nat} (hm : r.methods[index]? = some m)
    (hblocked : m.cStatus.isBlocked = false) {pops : Nat} {storage : Option Storage}
    (hsite : m.sites[i]? = some (.call (.user k) pops storage)) :
    ∃ target, r.methods[k]? = some target ∧ target.cStatus.isBlocked = false := by
  obtain ⟨o, op, ho, hsite, hlowers⟩ := h.exists_op_of_site hsite
  have hcallee : o.callee = some k := hlowers.callee_of_site hsite
  have hmem := mem_of_getElem? ho
  have hk := (h.callees o hmem k hcallee).2
  have htarget := Array.getElem?_eq_getElem hk
  refine ⟨_, htarget, ?_⟩
  have hfree := hcallers index m hm hblocked k (h.noted ▸ mem_callees_ofOps hmem hcallee)
  rw [isBlocked, htarget] at hfree
  exact hfree

end Registry

end DeviceCode
