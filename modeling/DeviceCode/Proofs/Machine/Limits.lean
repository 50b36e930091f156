import DeviceCode.Machine
import DeviceCode.Proofs.Outcome

/-!
# Runs and their limits

The limits of a machine stop runs and do nothing else. `Machine.GetsTo m n p p'`: the machine gets from
`p` to `p'` by `n` instructions, of whatever frames. Main statement: `Machine.limits_only_stop`, for all
images, compiled or not: a run that no limit stopped ends in the same way under higher limits, and a run
with a step limit executes no more instructions than that.
-/

namespace DeviceCode

/-- The limits allow all that the others do. A step limit is a word of 64 bits. -/
structure ExecutionLimits.Extends (l' l : ExecutionLimits) : Prop where
  depth : l.maxDepth ≤ l'.maxDepth
  steps : ∀ n', l'.maxSteps = some n' → ∃ n, l.maxSteps = some n ∧ n ≤ n'
  word : ∀ n, l.maxSteps = some n → n < 18446744073709551616

theorem ExecutionLimits.Extends.stepBound_le {l l' : ExecutionLimits} (h : l'.Extends l) :
    l.stepBound ≤ l'.stepBound := by
  unfold stepBound
  cases hl' : l'.maxSteps with
  | some n' =>
    obtain ⟨n, hn, hle⟩ := h.steps n' hl'
    rw [hn]
    exact hle
  | none =>
    cases hl : l.maxSteps with
    | none => exact Nat.le_refl _
    | some n => exact Nat.le_of_lt (h.word n hl)

/-- The run was stopped by a limit. -/
def RunError.isLimit : RunError → Bool
  | stepLimit _ | callDepth _ => true
  | _ => false

/-- How a run has ended, and its static region. -/
def Progress.ending? : Progress → Option (Except RunError Outcome × SlotArea)
  | running _ => none
  | returned outcome statics => some (.ok outcome, statics)
  | failed e statics => some (.error e, statics)

namespace Machine

def withLimits (m : Machine) (l : ExecutionLimits) : Machine := { m with limits := l }

@[simp] theorem image_withLimits (m : Machine) (l : ExecutionLimits) :
    (m.withLimits l).image = m.image := rfl

/-- So many instructions, one after the other, lead from one point of a run to another. -/
inductive GetsTo (m : Machine) : Nat → Progress → Progress → Prop
  | refl (p : Progress) : GetsTo m 0 p p
  | step {n : Nat} {s : MachineState} {p : Progress} (rest : GetsTo m n (m.step s) p) :
    GetsTo m (n + 1) (.running s) p

/-- Where a run stands before its first instruction. -/
def start (m : Machine) (index : Nat) (args : List Value) : Progress :=
  match m.image.methods[index]? with
  | none => .failed (.noSuchMethod index) m.statics
  | some method =>
    if method.args.length ≠ args.length then
      .failed (.argumentCount method.args.length args.length) m.statics
    else
      match fillArguments index method.args args with
      | .error e => .failed e m.statics
      | .ok area => m.invoke index area [] m.statics

section
variable {m : Machine} {p : Progress} {r : Except RunError Outcome × SlotArea} {n n' : Nat}

theorem execute_of_ending (h : p.ending? = some r) (n : Nat) : m.execute n p = r := by
  cases p with
  | running s => cases h
  | returned outcome statics | failed e statics =>
    cases h
    cases n <;> rfl

theorem run_eq (m : Machine) (index : Nat) (args : List Value) :
    m.run index args = ((m.execute m.limits.stepBound (m.start index args)).1,
      { m with statics := (m.execute m.limits.stepBound (m.start index args)).2 }) := by
  have hfailed : ∀ e, m.execute m.limits.stepBound (.failed e m.statics) = (.error e, m.statics) :=
    fun e => execute_of_ending rfl _
  unfold run start
  cases m.image.methods[index]? with
  | none => simp only [hfailed]
  | some method =>
    dsimp only
    split
    · simp only [hfailed]
    · cases fillArguments index method.args args with
      | error e => simp only [hfailed]
      | ok area => rfl

/-! ## Higher limits -/

variable {l : ExecutionLimits}

/-- The end of a run does not come from a limit. -/
def Unstopped (r : Except RunError Outcome × SlotArea) : Prop :=
  ∀ e, r.1 = .error e → e.isLimit = false

theorem invoke_eq_or_stopped (hl : m.limits.maxDepth ≤ l.maxDepth) (index : Nat) (args : SlotArea)
    (callers : List Caller) (statics : SlotArea) :
    (m.withLimits l).invoke index args callers statics =
        m.invoke index args callers statics ∨
      m.invoke index args callers statics = .failed (.callDepth m.limits.maxDepth) statics := by
  by_cases hdepth : m.limits.maxDepth ≤ callers.length
  · right
    simp [invoke, hdepth]
  · left
    have hdepth' : ¬ l.maxDepth ≤ callers.length := by omega
    simp [invoke, withLimits, hdepth, hdepth']

/-- **A step under higher limits** is the same, unless it was a call that went too deep. -/
theorem step_eq_or_stopped (hl : m.limits.maxDepth ≤ l.maxDepth) (s : MachineState) :
    (m.withLimits l).step s = m.step s ∨
      ∃ statics, m.step s = .failed (.callDepth m.limits.maxDepth) statics := by
  have hperform : ∀ method place f statics op,
      (m.withLimits l).perform method place f statics op =
        m.perform method place f statics op := by
    intro method place f statics op
    cases op <;> rfl
  unfold step
  rw [image_withLimits]
  dsimp only
  cases m.image.methods[s.frame.method]? with
  | none => exact .inl rfl
  | some method =>
    dsimp only
    cases MachineOp.decode? method.code s.frame.pc with
    | none => exact .inl rfl
    | some e =>
      obtain ⟨op, next⟩ := e
      dsimp only
      rw [hperform]
      cases m.perform method ⟨s.frame.method, s.frame.pc⟩ { s.frame with pc := next } s.statics op with
      | error e => exact .inl rfl
      | ok effect =>
        cases effect with
        | next f statics | ret value args => exact .inl rfl
        | call f callee args =>
          exact (invoke_eq_or_stopped hl callee args _ s.statics).imp id fun h => ⟨_, h⟩

/-- **An execution that no limit stops** goes the same way under higher limits. -/
theorem execute_of_unstopped (hl : m.limits.maxDepth ≤ l.maxDepth) (hn : n ≤ n')
    (h : Unstopped (m.execute n p)) :
    (m.withLimits l).execute n' p = m.execute n p := by
  induction n generalizing n' p with
  | zero =>
    cases p with
    | running s => exact absurd (h _ rfl) (by simp [RunError.isLimit])
    | returned outcome statics | failed e statics => exact execute_of_ending rfl n'
  | succ n ih =>
    cases p with
    | returned outcome statics | failed e statics => exact execute_of_ending rfl n'
    | running s =>
      obtain ⟨k, rfl⟩ : ∃ k, n' = k + 1 := ⟨n' - 1, by omega⟩
      have h : Unstopped (m.execute n (m.step s)) := h
      show (m.withLimits l).execute k _ = m.execute n (m.step s)
      rcases step_eq_or_stopped hl s with heq | ⟨statics, hstopped⟩
      · rw [heq]
        exact ih (by omega) h
      · rw [hstopped, execute_of_ending rfl] at h
        exact absurd (h _ rfl) (by simp [RunError.isLimit])

theorem start_eq_or_stopped (hl : m.limits.maxDepth ≤ l.maxDepth) (index : Nat) (args : List Value) :
    (m.withLimits l).start index args = m.start index args ∨
      ∃ statics, m.start index args = .failed (.callDepth m.limits.maxDepth) statics := by
  unfold start
  rw [image_withLimits]
  cases m.image.methods[index]? with
  | none => exact .inl rfl
  | some method =>
    dsimp only
    split
    · exact .inl rfl
    · cases fillArguments index method.args args with
      | error e => exact .inl rfl
      | ok area => exact (invoke_eq_or_stopped hl index area [] m.statics).imp id fun h => ⟨_, h⟩

/-! ## The number of instructions -/

/-- **An execution** takes as many instructions as it may at most. If it takes all of them and is still
running, it ends by the step limit. -/
theorem execute_advances (m : Machine) (n : Nat) (p : Progress) :
    ∃ k ≤ n, ∃ p', m.GetsTo k p p' ∧ (p'.ending? = some (m.execute n p) ∨
      k = n ∧ ∃ s, p' = .running s ∧
        m.execute n p = (.error (.stepLimit m.limits.stepBound), s.statics)) := by
  induction n generalizing p with
  | zero =>
    refine ⟨0, Nat.le_refl 0, p, .refl p, ?_⟩
    cases p with
    | running s => exact .inr ⟨rfl, s, rfl, rfl⟩
    | returned outcome statics | failed e statics => exact .inl rfl
  | succ n ih =>
    cases p with
    | returned outcome statics | failed e statics => exact ⟨0, Nat.zero_le _, _, .refl _, .inl rfl⟩
    | running s =>
      obtain ⟨k, hk, p', hadvances, hend⟩ := ih (m.step s)
      refine ⟨k + 1, by omega, p', .step hadvances, hend.imp id ?_⟩
      rintro ⟨rfl, hrunning⟩
      exact ⟨rfl, hrunning⟩

end

/-- **Limits only stop runs.** A run that was not stopped by a limit has the same result and leaves the
same static region under limits that allow more, and a step limit bounds the number of the instructions
that are executed, those of all calls together. -/
theorem limits_only_stop (m : Machine) (l : ExecutionLimits) (hl : l.Extends m.limits) (index : Nat)
    (args : List Value) :
    ((∀ e, (m.run index args).1 = .error e → e.isLimit = false) →
      ((m.withLimits l).run index args).1 = (m.run index args).1 ∧
      ((m.withLimits l).run index args).2.statics = (m.run index args).2.statics) ∧
    ∀ bound, m.limits.maxSteps = some bound →
      ∃ n ≤ bound, ∃ p, m.GetsTo n (m.start index args) p ∧
        (p.ending? = some ((m.run index args).1, (m.run index args).2.statics) ∨
          n = bound ∧ ∃ s, p = .running s ∧ (m.run index args).1 = .error (.stepLimit bound) ∧
            (m.run index args).2.statics = s.statics) := by
  simp only [run_eq]
  refine ⟨fun h => ?_, fun bound hbound => ?_⟩
  · have hsame : (m.withLimits l).execute l.stepBound
        ((m.withLimits l).start index args) =
          m.execute m.limits.stepBound (m.start index args) := by
      rcases start_eq_or_stopped hl.depth index args with heq | ⟨statics, hstopped⟩
      · rw [heq]
        exact execute_of_unstopped hl.depth hl.stepBound_le h
      · rw [hstopped, execute_of_ending rfl] at h
        exact absurd (h _ rfl) (by simp [RunError.isLimit])
    exact ⟨congrArg Prod.fst hsame, congrArg Prod.snd hsame⟩
  · have hsteps : m.limits.stepBound = bound := by
      unfold ExecutionLimits.stepBound
      rw [hbound]
      rfl
    obtain ⟨n, hn, p, hadvances, hend⟩ := execute_advances m bound (m.start index args)
    rw [hsteps]
    refine ⟨n, hn, p, hadvances, hend.imp id ?_⟩
    rintro ⟨rfl, s, rfl, hstopped⟩
    rw [hsteps] at hstopped
    rw [hstopped]
    exact ⟨rfl, s, rfl, rfl, rfl⟩

/-- A method that calls itself with one less until it comes to zero, and writes its argument to the static
region on the way back. The limits are just high enough for two calls. -/
def descent : Machine where
  image := {
    header := default
    methods := #[{
      retTag := voidTag, retClass := -1, args := [⟨6, -1⟩], locals := [], maxStack := 2, codeOffset := 0
      code := #[0x02, 0, 0, 0x28, 20, 0, 0x02, 0, 0, 0x15, 6, 1, 0, 0, 0, 0x4D, 0x61, 0xA6, 0, 0,
        0x02, 0, 0, 0x7D, 1, 0, 0, 0, 0, 0x26] }]
    classes := []
    descriptors := []
    dispatch := []
    statics := { size := 2, entries := [⟨1, 0, 0, false⟩] } }
  builtins := .standard
  limits := { maxDepth := 3, maxSteps := some 23 }
  statics := #[1, 0]

theorem descent_unlimited :
    (∀ e, (descent.run 0 [.i4 2]).1 = .error e → e.isLimit = false) ∧
    ((descent.withLimits ⟨256, none⟩).run 0 [.i4 2]).1 = (descent.run 0 [.i4 2]).1 ∧
    ((descent.withLimits ⟨256, none⟩).run 0 [.i4 2]).2.statics = #[1, 2] ∧
    ∃ n ≤ 23, ∃ p, descent.GetsTo n (descent.start 0 [.i4 2]) p ∧
      (p.ending? = some ((descent.run 0 [.i4 2]).1, #[1, 2]) ∨
        n = 23 ∧ ∃ s, p = .running s ∧ (descent.run 0 [.i4 2]).1 = .error (.stepLimit 23) ∧
          #[1, 2] = s.statics) := by
  have hlimits : ExecutionLimits.Extends ⟨256, none⟩ descent.limits := by
    refine ⟨by decide, fun n' h => ?_, fun n h => ?_⟩
    · cases h
    · cases h
      decide
  have hrun : (descent.run 0 [.i4 2]).1.toOption.isSome = true := by decide +kernel
  have hstatics : (descent.run 0 [.i4 2]).2.statics = #[1, 2] := by decide +kernel
  have hok : ∀ e, (descent.run 0 [.i4 2]).1 = .error e → e.isLimit = false := by
    intro e he
    rw [he] at hrun
    cases hrun
  obtain ⟨hsame, hbound⟩ := limits_only_stop descent ⟨256, none⟩ hlimits 0 [.i4 2]
  rw [← hstatics]
  exact ⟨hok, (hsame hok).1, (hsame hok).2, hbound 23 rfl⟩

end Machine

end DeviceCode
