import Mathlib.Data.List.Forall2

/-!
# Taking computations apart

What a computation that ended well did on its way, for computations with exceptions alone and for
those that keep a state beside them. `stateAfter` is the state that such a computation leaves,
whether it ended well or failed; `Keeps R x` says that `x` relates the state before to the state
after by `R` in both cases. `Growth R` is what makes that a property of sequences: `R` is reflexive
and transitive.
-/

namespace DeviceCode

open EStateM.Result

open List

variable {α β ε' : Type} {c : Prop}

/-! ## Lists side by side -/

theorem forall₂_mem_right {R : α → β → Prop} :
    ∀ {xs : List α} {ys : List β}, List.Forall₂ R xs ys → ∀ y ∈ ys, ∃ x ∈ xs, R x y
  | _, _, .nil, y, hy => by simp at hy
  | x :: _, _, .cons hxy hrest, y, hy => by
    rcases mem_cons.1 hy with rfl | hy
    · exact ⟨x, mem_cons_self, hxy⟩
    · obtain ⟨x', hx', h⟩ := forall₂_mem_right hrest y hy
      exact ⟨x', mem_cons_of_mem _ hx', h⟩

theorem forall₂_getElem? {R : α → β → Prop} {xs : List α} {ys : List β} (h : List.Forall₂ R xs ys)
    {i : Nat} {x : α} (hx : xs[i]? = some x) : ∃ y, ys[i]? = some y ∧ R x y := by
  obtain ⟨hi, rfl⟩ := List.getElem?_eq_some_iff.1 hx
  have hi' : i < ys.length := h.length_eq ▸ hi
  exact ⟨ys[i], List.getElem?_eq_getElem hi', h.get hi hi'⟩

theorem forall₂_of_getElem? {R : α → β → Prop} : ∀ {xs : List α} {ys : List β},
    (∀ i : Nat, Option.Rel R xs[i]? ys[i]?) → List.Forall₂ R xs ys
  | [], [], _ => .nil
  | [], _ :: _, h => by cases h 0
  | _ :: _, [], h => by cases h 0
  | _ :: _, _ :: _, h => by
    cases h 0 with
    | some hfirst => exact .cons hfirst (forall₂_of_getElem? fun i => h (i + 1))

/-! ## Exceptions -/

section
variable {ε α β : Type} {x : Except ε α} {a : α} {b : β} {e : ε}

theorem except_bind_ok {f : α → Except ε β} : (x >>= f) = .ok b ↔ ∃ a, x = .ok a ∧ f a = .ok b := by
  cases x with
  | error e | ok a => simp [bind, Except.bind]

theorem except_bind_error {f : α → Except ε β} :
    (x >>= f) = .error e ↔ x = .error e ∨ ∃ a, x = .ok a ∧ f a = .error e := by
  cases x with
  | error e' | ok a => simp [bind, Except.bind]

theorem except_ok_bind (a : α) (f : α → Except ε β) : (Except.ok a >>= f) = f a := rfl

theorem except_map_ok {f : α → β} : x.map f = .ok b ↔ ∃ a, x = .ok a ∧ f a = b := by
  cases x <;> simp [Except.map]

theorem except_functor_ok {f : α → β} : (f <$> x) = .ok b ↔ ∃ a, x = .ok a ∧ f a = b := except_map_ok

theorem except_mapError_ok {f : ε → ε'} : x.mapError f = .ok a ↔ x = .ok a := by
  cases x <;> simp [Except.mapError]

theorem except_toOption : x.toOption = some a ↔ x = .ok a := by
  cases x <;> simp [Except.toOption]

theorem except_any_toOption {p : α → Bool} : x.toOption.any p = true ↔ ∃ a, x = .ok a ∧ p a = true := by
  cases x <;> simp [Except.toOption]

@[simp] theorem except_pure_ok {a b : α} : (pure a : Except ε α) = .ok b ↔ a = b := by
  simp [pure, Except.pure]

@[simp] theorem except_throw_ok : (throw e : Except ε α) = .ok a ↔ False := by
  simp [throw, throwThe, MonadExceptOf.throw]

theorem except_mapM_ok {f : α → Except ε β} :
    ∀ {xs : List α} {ys : List β},
      xs.mapM f = .ok ys ↔ List.Forall₂ (fun x y => f x = .ok y) xs ys
  | [], ys => by
    rw [mapM_nil, except_pure_ok]
    constructor
    · rintro rfl; exact .nil
    · intro h; cases h; rfl
  | x :: xs, ys => by
    rw [mapM_cons, except_bind_ok]
    constructor
    · rintro ⟨y, hy, h⟩
      obtain ⟨ys', hys, h⟩ := except_bind_ok.1 h
      rw [← except_pure_ok.1 h]
      exact .cons hy (except_mapM_ok.1 hys)
    · intro h
      cases h with
      | @cons _ y _ ys' hy hys =>
        exact ⟨y, hy, except_bind_ok.2 ⟨ys', except_mapM_ok.2 hys, rfl⟩⟩

theorem except_filterMapM_ok {f : α → Except ε (Option β)} {xs : List α}
    (h : ∀ x ∈ xs, ∃ y, f x = .ok y) :
    xs.filterMapM f = .ok (xs.filterMap fun x => (f x).toOption.join) := by
  have loop : ∀ (xs : List α) (acc : List β), (∀ x ∈ xs, ∃ y, f x = .ok y) →
      filterMapM.loop f xs acc =
        .ok (acc.reverse ++ xs.filterMap fun x => (f x).toOption.join) := by
    intro xs
    induction xs with
    | nil =>
      simp [filterMapM.loop, pure, Except.pure]
    | cons x xs ih =>
      intro acc h
      obtain ⟨y, hy⟩ := h x mem_cons_self
      have hrest := fun acc => ih acc fun z hz => h z (mem_cons_of_mem _ hz)
      rw [filterMapM.loop, filterMap_cons, hy]
      cases y with
      | none => exact hrest acc
      | some y => exact (hrest (y :: acc)).trans (by simp [Except.toOption])
  exact loop xs [] h

theorem except_forM_ok {f : α → Except ε Unit} :
    ∀ {xs : List α} {u : Unit}, xs.forM f = .ok u → ∀ x ∈ xs, f x = .ok ()
  | [], _, _, x, hx => by simp at hx
  | y :: xs, _, h, x, hx => by
    obtain ⟨_, hy, h⟩ := except_bind_ok.1 h
    rcases mem_cons.1 hx with rfl | hx
    · exact hy
    · exact except_forM_ok h x hx

variable {f : β → α → Except ε β}

theorem except_foldlM_from (P : List α → β → Prop)
    (hf : ∀ done b a b', P done b → f b a = .ok b' → P (done ++ [a]) b') :
    ∀ {xs done : List α} {b b' : β}, P done b → xs.foldlM f b = .ok b' → P (done ++ xs) b'
  | [], done, b, b', hb, h => by
    rw [foldlM_nil, except_pure_ok] at h
    simpa [h] using hb
  | x :: xs, done, b, b', hb, h => by
    rw [foldlM_cons, except_bind_ok] at h
    obtain ⟨c, hc, h⟩ := h
    simpa using except_foldlM_from P hf (hf done b x c hb hc) h

theorem except_foldlM_ok (P : List α → β → Prop)
    (hf : ∀ done b a b', P done b → f b a = .ok b' → P (done ++ [a]) b') {xs : List α} {b b' : β}
    (hb : P [] b) (h : xs.foldlM f b = .ok b') : P xs b' := by
  simpa using except_foldlM_from P hf hb h

theorem except_foldlM_error :
    ∀ {xs : List α} {b : β}, xs.foldlM f b = .error e → ∃ done x rest b', xs = done ++ x :: rest ∧
      done.foldlM f b = .ok b' ∧ f b' x = .error e
  | [], b, h => by cases h
  | x :: xs, b, h => by
    rw [foldlM_cons] at h
    cases hx : f b x with
    | error e' =>
      rw [hx] at h
      cases h
      exact ⟨[], x, xs, b, rfl, rfl, hx⟩
    | ok b₁ =>
      rw [hx] at h
      obtain ⟨done, y, rest, b', rfl, hdone, hy⟩ := except_foldlM_error h
      refine ⟨x :: done, y, rest, b', rfl, ?_, hy⟩
      rw [foldlM_cons, hx]
      exact hdone

/-- A fold goes through if every step does, and keeps an invariant that is indexed by the items
behind it. -/
theorem except_foldlM_exists (P : List α → β → Prop) {xs : List α}
    (hf : ∀ done a rest b, xs = done ++ a :: rest → P done b →
      ∃ b', f b a = .ok b' ∧ P (done ++ [a]) b') {b : β} (hb : P [] b) :
    ∃ b', xs.foldlM f b = .ok b' ∧ P xs b' := by
  have start : ∀ (rest done : List α) (b : β), xs = done ++ rest → P done b →
      ∃ b', rest.foldlM f b = .ok b' ∧ P xs b' := by
    intro rest
    induction rest with
    | nil =>
      intro done b hxs hb
      rw [append_nil] at hxs
      exact ⟨b, rfl, hxs ▸ hb⟩
    | cons a rest ih =>
      intro done b hxs hb
      obtain ⟨b₁, hstep, hb₁⟩ := hf done a rest b hxs hb
      obtain ⟨b', hrest, hb'⟩ := ih (done ++ [a]) b₁ (by simpa using hxs) hb₁
      refine ⟨b', ?_, hb'⟩
      rw [foldlM_cons, hstep]
      exact hrest
  exact start xs [] b rfl hb

theorem except_foldlM_range {f : β → Nat → Except ε β} (P : Nat → β → Prop) {n : Nat}
    (hf : ∀ i b, i < n → P i b → ∃ b', f b i = .ok b' ∧ P (i + 1) b') {b : β} (hb : P 0 b) :
    ∃ b', (List.range n).foldlM f b = .ok b' ∧ P n b' := by
  induction n with
  | zero => exact ⟨b, rfl, hb⟩
  | succ n ih =>
    obtain ⟨b₁, hfirst, hb₁⟩ := ih fun i b hi => hf i b (by omega)
    obtain ⟨b', hlast, hb'⟩ := hf n b₁ (by omega) hb₁
    refine ⟨b', ?_, hb'⟩
    rw [range_succ, foldlM_append]
    refine except_bind_ok.2 ⟨b₁, hfirst, ?_⟩
    exact except_bind_ok.2 ⟨b', hlast, rfl⟩

theorem except_foldlM_forall₂ {α' β' : Type} {g : β' → α' → Except ε' β'}
    {P : α → α' → Prop} {R : β → β' → Prop}
    (hstep : ∀ a a' b b', P a a' → R b b' → ∃ b₁ b₁', f b a = .ok b₁ ∧ g b' a' = .ok b₁' ∧ R b₁ b₁') :
    ∀ {xs : List α} {xs' : List α'}, List.Forall₂ P xs xs' → ∀ {b : β} {b' : β'}, R b b' →
      ∃ b₁ b₁', xs.foldlM f b = .ok b₁ ∧ xs'.foldlM g b' = .ok b₁' ∧ R b₁ b₁'
  | _, _, .nil, b, b', hR => ⟨b, b', rfl, rfl, hR⟩
  | _, _, .cons ha hrest, b, b', hR => by
    obtain ⟨b₁, b₁', hf, hg, hR₁⟩ := hstep _ _ b b' ha hR
    obtain ⟨b₂, b₂', hf', hg', hR₂⟩ := except_foldlM_forall₂ hstep hrest hR₁
    refine ⟨b₂, b₂', ?_, ?_, hR₂⟩
    · exact except_bind_ok.2 ⟨b₁, hf, hf'⟩
    · exact except_bind_ok.2 ⟨b₁', hg, hg'⟩

theorem except_foldlM_states : ∀ {xs : List α} {b b' : β},
    xs.foldlM f b = .ok b' → ∃ at_ : Nat → β, at_ 0 = b ∧ at_ xs.length = b' ∧
      ∀ (i : Nat) x, xs[i]? = some x → f (at_ i) x = .ok (at_ (i + 1))
  | [], b, b', h => ⟨fun _ => b, rfl, except_pure_ok.1 h, by simp⟩
  | x :: xs, b, b', h => by
    obtain ⟨b₁, hx, h⟩ := except_bind_ok.1 h
    obtain ⟨at_, hzero, hlast, hstep⟩ := except_foldlM_states h
    refine ⟨fun i => i.casesOn b at_, rfl, hlast, fun i y hy => ?_⟩
    cases i with
    | zero =>
      cases hy
      exact hx.trans (congrArg Except.ok hzero.symm)
    | succ i => exact hstep i y hy

end

instance decidableEqExcept {ε α : Type} [DecidableEq ε] [DecidableEq α] :
    DecidableEq (Except ε α)
  | .ok a, .ok b => decidable_of_iff (a = b) (by simp)
  | .error e, .error e' => decidable_of_iff (e = e') (by simp)
  | .ok _, .error _ => isFalse (by simp)
  | .error _, .ok _ => isFalse (by simp)

/-! ## Exceptions beside a state -/

instance decidableEqResult {ε σ α : Type} [DecidableEq ε] [DecidableEq σ] [DecidableEq α] :
    DecidableEq (EStateM.Result ε σ α)
  | .ok a s, .ok b t => decidable_of_iff (a = b ∧ s = t) (by simp)
  | .error e s, .error e' t => decidable_of_iff (e = e' ∧ s = t) (by simp)
  | .ok _ _, .error _ _ => isFalse (by simp)
  | .error _ _, .ok _ _ => isFalse (by simp)

section
variable {ε σ α β : Type} {x : EStateM ε σ α} {f : α → EStateM ε σ β} {s s' t : σ} {u : PUnit}
  {a : α} {b : β} {e : ε} {R : σ → σ → Prop}
  {a : α} {b : β} {e : ε} {R : σ → σ → Prop}

theorem state_bind_ok : (x >>= f) s = .ok b s' ↔ ∃ a t, x s = .ok a t ∧ f a t = .ok b s' := by
  simp only [bind, EStateM.bind]
  cases x s with
  | ok a t =>
    constructor
    · intro h; exact ⟨a, t, rfl, h⟩
    · rintro ⟨_, _, h, h'⟩; cases h; exact h'
  | error e t => simp

@[simp] theorem state_pure_ok {a b : α} :
    (pure a : EStateM ε σ α) s = .ok b s' ↔ a = b ∧ s = s' := by
  show ok a s = .ok b s' ↔ a = b ∧ s = s'
  simp

@[simp] theorem state_throw_ok : (throw e : EStateM ε σ α) s = .ok a s' ↔ False := by
  show error e s = .ok a s' ↔ False
  simp

@[simp] theorem state_get_ok {a : σ} :
    (get : EStateM ε σ σ) s = .ok a s' ↔ s = a ∧ s = s' := by
  show ok s s = .ok a s' ↔ s = a ∧ s = s'
  simp

@[simp] theorem state_set_ok :
    (set t : EStateM ε σ PUnit) s = .ok u s' ↔ t = s' := by
  show ok PUnit.unit t = .ok u s' ↔ t = s'
  simp

@[simp] theorem state_modify_ok {f : σ → σ} :
    (modify f : EStateM ε σ PUnit) s = .ok u s' ↔ f s = s' := by
  show ok PUnit.unit (f s) = .ok u s' ↔ f s = s'
  simp

@[simp] theorem state_ofExcept_ok {x : Except ε α} :
    (MonadExcept.ofExcept x : EStateM ε σ α) s = .ok a s' ↔ x = .ok a ∧ s = s' := by
  cases x with
  | ok b | error e => simp [MonadExcept.ofExcept]

theorem state_get_bind (f : σ → EStateM ε σ β) (s : σ) : (get >>= f) s = f s s := rfl

theorem state_modify_bind (g : σ → σ) (f : PUnit → EStateM ε σ β) (s : σ) :
    (modify g >>= f) s = f ⟨⟩ (g s) := rfl

theorem state_ofExcept_bind_ok {x : Except ε α} :
    ((MonadExcept.ofExcept x : EStateM ε σ α) >>= f) s = .ok b s' ↔
      ∃ a, x = .ok a ∧ f a s = .ok b s' := by
  rw [state_bind_ok]
  constructor
  · rintro ⟨a, t, hfirst, h⟩
    obtain ⟨hx, rfl⟩ := state_ofExcept_ok.1 hfirst
    exact ⟨a, hx, h⟩
  · rintro ⟨a, hx, h⟩
    exact ⟨a, s, state_ofExcept_ok.2 ⟨hx, rfl⟩, h⟩

theorem state_bind_of_ok (h : x s = .ok a t) (f : α → EStateM ε σ β) : (x >>= f) s = f a t := by
  simp [bind, EStateM.bind, h]

theorem state_bind_of_error (h : x s = .error e t)
    (f : α → EStateM ε σ β) : (x >>= f) s = .error e t := by
  simp [bind, EStateM.bind, h]

theorem state_bind_error : (x >>= f) s = .error e t ↔
      x s = .error e t ∨ ∃ a s', x s = .ok a s' ∧ f a s' = .error e t := by
  cases h : x s with
  | ok a s' =>
    rw [state_bind_of_ok h]
    constructor
    · exact fun hf => .inr ⟨a, s', rfl, hf⟩
    · rintro (h' | ⟨_, _, h', hf⟩) <;> cases h'
      exact hf
  | error e' s' =>
    rw [state_bind_of_error h]
    simp

theorem state_ofExcept_error {x : Except ε α} :
    (MonadExcept.ofExcept x : EStateM ε σ α) s = .error e t ↔ x = .error e ∧ s = t := by
  cases x with
  | ok a =>
    constructor
    · intro h
      cases h
    · rintro ⟨h, -⟩
      cases h
  | error e' =>
    constructor
    · intro h
      cases h
      exact ⟨rfl, rfl⟩
    · rintro ⟨h, rfl⟩
      cases h
      rfl

theorem state_ite_ok [Decidable c] {y : EStateM ε σ α} :
    (if c then x else y) s = .ok a s' ↔ c ∧ x s = .ok a s' ∨ ¬c ∧ y s = .ok a s' := by
  by_cases h : c <;> simp [h]

theorem state_guard_ok [Decidable c] {f : β → EStateM ε σ α}
    : (if c then throw e >>= f else x) s = .ok a s' ↔ ¬c ∧ x s = .ok a s' := by
  rw [state_ite_ok, state_bind_ok]
  simp

theorem state_foldlM_from {f : β → α → EStateM ε σ β} (P : List α → β → σ → Prop)
    (hf : ∀ done b a s b' s', P done b s → f b a s = .ok b' s' → P (done ++ [a]) b' s') :
    ∀ {xs done : List α} {b b' : β} {s s' : σ}, P done b s → xs.foldlM f b s = .ok b' s' →
      P (done ++ xs) b' s'
  | [], done, b, b', s, s', hb, h => by
    obtain ⟨rfl, rfl⟩ := h
    simpa using hb
  | x :: xs, done, b, b', s, s', hb, h => by
    rw [foldlM_cons, state_bind_ok] at h
    obtain ⟨c, t, hc, h⟩ := h
    simpa using state_foldlM_from P hf (hf done b x s c t hb hc) h

theorem state_foldlM_ok {f : β → α → EStateM ε σ β} (P : List α → β → σ → Prop)
    (hf : ∀ done b a s b' s', P done b s → f b a s = .ok b' s' → P (done ++ [a]) b' s')
    {xs : List α} {b b' : β} (hb : P [] b s) (h : xs.foldlM f b s = .ok b' s') :
    P xs b' s' := by
  simpa using state_foldlM_from P hf hb h

/-! ## What a computation leaves behind -/

/-- The state after a computation, also after one that failed. -/
def stateAfter (x : EStateM ε σ α) (s : σ) : σ :=
  match x s with
  | .ok _ s' => s'
  | .error _ s' => s'

theorem stateAfter_ok (h : x s = .ok a s') : stateAfter x s = s' := by rw [stateAfter, h]

theorem stateAfter_error (h : x s = .error e s') : stateAfter x s = s' := by rw [stateAfter, h]

theorem stateAfter_bind_ok (h : x s = .ok a t) : stateAfter (x >>= f) s = stateAfter (f a) t := by
  simp [stateAfter, bind, EStateM.bind, h]

theorem stateAfter_bind_error (h : x s = .error e t) : stateAfter (x >>= f) s = t := by
  simp [stateAfter, bind, EStateM.bind, h]

theorem stateAfter_map (f : α → β) :
    stateAfter (f <$> x) s = stateAfter x s := by
  simp only [stateAfter, Functor.map, EStateM.map]
  cases x s <;> rfl

theorem stateAfter_bind_pure {f : α → β} :
    stateAfter (x >>= fun a => pure (f a)) s = stateAfter x s := by
  cases h : x s with
  | ok a t => rw [stateAfter_bind_ok h, stateAfter_ok h]; rfl
  | error e t => rw [stateAfter_bind_error h, stateAfter_error h]

theorem ok_of_run' (h : x.run' s = some a) : x s = .ok a (stateAfter x s) := by
  delta EStateM.run' EStateM.run at h
  cases hx : x s with
  | ok b t =>
    rw [hx] at h
    cases h
    rw [stateAfter_ok hx]
  | error e t =>
    rw [hx] at h
    cases h

/-- A result that passes a check, which evaluation can find. -/
theorem ok_of_any {p : α → Bool} (h : (x.run' s).any p = true) :
    ∃ a, x s = .ok a (stateAfter x s) ∧ p a = true := by
  obtain ⟨a, hrun, ha⟩ := Option.any_eq_true _ _ |>.1 h
  exact ⟨a, ok_of_run' hrun, ha⟩

/-- The computation relates the state before it to the state after it. -/
def Keeps (R : σ → σ → Prop) (x : EStateM ε σ α) : Prop := ∀ s, R s (stateAfter x s)

/-- A relation along which states can only move on. -/
structure Growth (R : σ → σ → Prop) : Prop where
  refl : ∀ s, R s s
  trans : ∀ {s t u}, R s t → R t u → R s u

theorem Keeps.ok (h : Keeps R x) {a : α} (hx : x s = .ok a s') : R s s' := stateAfter_ok hx ▸ h s

/-- A first part that moves along `R` may stand before a second one that moves along `Q`. -/
theorem Keeps.bind_lead {R Q : σ → σ → Prop} (sub : ∀ s t, R s t → Q s t)
    (lead : ∀ s t u, R s t → Q t u → Q s u)
    (hx : Keeps R x) (hf : ∀ s a t, x s = .ok a t → Q t (stateAfter (f a) t)) :
    Keeps Q (x >>= f) := by
  intro s
  have h := hx s
  cases hr : x s with
  | ok a t =>
    rw [stateAfter_ok hr] at h
    rw [stateAfter_bind_ok hr]
    exact lead s t _ h (hf s a t hr)
  | error e t =>
    rw [stateAfter_error hr] at h
    rw [stateAfter_bind_error hr]
    exact sub s t h

namespace Growth

variable (g : Growth R)
include g

theorem pure (a : α) : Keeps R (pure a : EStateM ε σ α) := fun s => g.refl s

theorem throw (e : ε) : Keeps R (throw e : EStateM ε σ α) := fun s => g.refl s

theorem get : Keeps R (get : EStateM ε σ σ) := fun s => g.refl s

theorem ofExcept (x : Except ε α) : Keeps R (MonadExcept.ofExcept x : EStateM ε σ α) := by
  cases x with
  | ok a => exact g.pure a
  | error e => exact g.throw e

omit g in
theorem modify {f : σ → σ} (h : ∀ s, R s (f s)) : Keeps R (modify f : EStateM ε σ PUnit) :=
  fun s => h s

theorem bind_of (hx : Keeps R x)
    (hf : ∀ s a t, x s = .ok a t → R t (stateAfter (f a) t)) : Keeps R (x >>= f) :=
  hx.bind_lead (Q := R) (fun _ _ h => h) (fun _ _ _ => g.trans) hf

theorem bind (hx : Keeps R x)
    (hf : ∀ a, Keeps R (f a)) : Keeps R (x >>= f) := g.bind_of hx fun _ a t _ => hf a t

omit g in
theorem map (f : α → β) (hx : Keeps R x) : Keeps R (f <$> x) :=
  fun s => stateAfter_map f ▸ hx s

end Growth

/-! ## What a computation that ended well leaves behind -/

/-- The computation relates the state before it to the state after it, if it ends well. -/
def Leads (R : σ → σ → Prop) (x : EStateM ε σ α) : Prop := ∀ s a s', x s = .ok a s' → R s s'

theorem Keeps.leads (h : Keeps R x) : Leads R x :=
  fun _ _ _ hx => h.ok hx

theorem leads_throw (e : ε) : Leads R (throw e : EStateM ε σ α) :=
  fun s a s' h => by simp at h

namespace Growth

variable (g : Growth R)
include g

theorem mapM_ok {P : σ → α → β → Prop} (lasts : ∀ s t a b, R s t → P s a b → P t a b)
    (hf : ∀ a s b t, f a s = .ok b t → R s t ∧ P t a b) :
    ∀ {xs : List α} {ys : List β} {s t : σ}, xs.mapM f s = .ok ys t →
      R s t ∧ List.Forall₂ (P t) xs ys
  | [], ys, s, t, h => by
    obtain ⟨rfl, rfl⟩ := h
    exact ⟨g.refl s, .nil⟩
  | x :: xs, ys, s, t, h => by
    rw [mapM_cons] at h
    obtain ⟨y, s₁, hx, h⟩ := state_bind_ok.1 h
    obtain ⟨ys', s₂, hxs, h⟩ := state_bind_ok.1 h
    obtain ⟨rfl, rfl⟩ := state_pure_ok.1 h
    obtain ⟨hfirst, hy⟩ := hf x s y s₁ hx
    obtain ⟨hrest, hys⟩ := mapM_ok lasts hf hxs
    exact ⟨g.trans hfirst hrest, .cons (lasts _ _ x y hrest hy) hys⟩

end Growth

/-! ## Properties of computations -/

/-- A property of computations that a sequence has if its parts have it. What follows a part need
have it only for the values that the part can give. -/
structure Closed (Φ : {α : Type} → EStateM ε σ α → Prop) : Prop where
  pure : ∀ {α : Type} (a : α), Φ (pure a)
  throw : ∀ {α : Type} (e : ε), Φ (throw e : EStateM ε σ α)
  get : Φ get
  bind_of : ∀ {α β : Type} {x : EStateM ε σ α} {f : α → EStateM ε σ β}, Φ x →
    (∀ s a t, x s = .ok a t → Φ (f a)) → Φ (x >>= f)

theorem Closed.ofExcept {Φ : {α : Type} → EStateM ε σ α → Prop} (h : Closed Φ) (x : Except ε α) :
    Φ (MonadExcept.ofExcept x : EStateM ε σ α) := by
  cases x with
  | ok a => exact h.pure a
  | error e => exact h.throw e

section
variable {Φ : {α : Type} → EStateM ε σ α → Prop} (h : Closed Φ)
include h

theorem Closed.bind {x : EStateM ε σ α} {f : α → EStateM ε σ β} (hx : Φ x)
    (hf : ∀ a, Φ (f a)) : Φ (x >>= f) := h.bind_of hx fun _ a _ _ => hf a

end

theorem Growth.closed_keeps (g : Growth R) : Closed (ε := ε) fun x => Keeps R x :=
  ⟨g.pure, g.throw, g.get, fun hx hf => g.bind_of hx fun s a t h => hf s a t h t⟩

theorem Growth.closed_leads (g : Growth R) : Closed (ε := ε) fun x => Leads R x :=
  ⟨fun a => (g.pure a).leads, leads_throw, g.get.leads, fun hx hf s b s' h => by
    obtain ⟨a, t, h₁, h₂⟩ := state_bind_ok.1 h
    exact g.trans (hx s a t h₁) (hf s a t h₁ t b s' h₂)⟩

/-! ## Two computations side by side -/

/-- A relation between computations that two sequences stand in if their parts do, part by part.
Of failures it need hold only for the errors of `E`. -/
structure Parallel (E : ε → Prop) (Φ : {α : Type} → EStateM ε σ α → EStateM ε σ α → Prop) :
    Prop where
  pure : ∀ {α : Type} (a : α), Φ (pure a) (pure a)
  throw : ∀ {α : Type} {e : ε}, E e → Φ (throw e : EStateM ε σ α) (throw e)
  get : Φ get get
  bind_of : ∀ {α β : Type} {x y : EStateM ε σ α} {f g : α → EStateM ε σ β}, Φ x y →
    (∀ s a t, x s = .ok a t → Φ (f a) (g a)) → Φ (x >>= f) (y >>= g)

/-- The relation between a computation and itself. -/
abbrev Doubly (Φ : {α : Type} → EStateM ε σ α → EStateM ε σ α → Prop) (x : EStateM ε σ α) : Prop :=
  Φ x x

theorem Closed.parallel {Φ : {α : Type} → EStateM ε σ α → Prop} (h : Closed Φ) (E : ε → Prop) :
    Parallel E fun x _ => Φ x :=
  ⟨h.pure, fun {_ e} _ => h.throw e, h.get, h.bind_of⟩

section
variable {E : ε → Prop} {Φ : {α : Type} → EStateM ε σ α → EStateM ε σ α → Prop}
  (h : Parallel E Φ)
include h

theorem Parallel.bind {x y : EStateM ε σ α} {f g : α → EStateM ε σ β} (hx : Φ x y)
    (hf : ∀ a, Φ (f a) (g a)) : Φ (x >>= f) (y >>= g) := h.bind_of hx fun _ a _ _ => hf a

omit h in
theorem Parallel.ite [Decidable c] {x x' y y' : EStateM ε σ α} (hx : Φ x y)
    (hx' : Φ x' y') : Φ (if c then x else x') (if c then y else y') := by
  split
  · exact hx
  · exact hx'

theorem Parallel.throw_bind {e : ε} (he : E e) (f g : α → EStateM ε σ β) :
    Φ (MonadExcept.throw e >>= f) (MonadExcept.throw e >>= g) := h.throw he

theorem Parallel.ofExcept {x : Except ε α} (hx : ∀ e, x = .error e → E e) :
    Φ (MonadExcept.ofExcept x) (MonadExcept.ofExcept x) := by
  cases x with
  | ok a => exact h.pure a
  | error e => exact h.throw (hx e rfl)

theorem Parallel.ofExcept_bind {x : Except ε α} {f g : α → EStateM ε σ β}
    (hx : ∀ e, x = .error e → E e) (hf : ∀ a, x = .ok a → Φ (f a) (g a)) :
    Φ (MonadExcept.ofExcept x >>= f) (MonadExcept.ofExcept x >>= g) := by
  cases x with
  | ok a => exact hf a rfl
  | error e => exact h.throw (hx e rfl)

theorem Parallel.foldlM_of {f g : β → α → EStateM ε σ β} {P : β → Prop} :
    ∀ {xs : List α}, (∀ b, P b → ∀ a ∈ xs, Φ (f b a) (g b a)) →
      (∀ b, P b → ∀ a ∈ xs, ∀ s b' t, f b a s = .ok b' t → P b') →
      ∀ b, P b → Φ (xs.foldlM f b) (xs.foldlM g b)
  | [], _, _, b, _ => by
    exact h.pure b
  | x :: xs, hf, hP, b, hb => by
    exact h.bind_of (hf b hb x mem_cons_self) fun s c t hc =>
      foldlM_of (fun b hb a ha => hf b hb a (mem_cons_of_mem x ha))
        (fun b hb a ha => hP b hb a (mem_cons_of_mem x ha)) c
        (hP b hb x mem_cons_self s c t hc)

theorem Parallel.foldlM {f g : β → α → EStateM ε σ β} {xs : List α}
    (hf : ∀ b, ∀ a ∈ xs, Φ (f b a) (g b a)) (b : β) : Φ (xs.foldlM f b) (xs.foldlM g b) :=
  h.foldlM_of (P := fun _ => True) (fun b _ => hf b) (fun _ _ _ _ _ _ _ _ => trivial) b trivial

theorem Parallel.forM {f g : α → EStateM ε σ PUnit} :
    ∀ {xs : List α}, (∀ a ∈ xs, Φ (f a) (g a)) → Φ (xs.forM f) (xs.forM g)
  | [], _ => h.pure _
  | x :: _, hf => h.bind (hf x mem_cons_self) fun _ =>
    forM fun a ha => hf a (mem_cons_of_mem x ha)

theorem Parallel.mapM {f g : α → EStateM ε σ β} (hf : ∀ a, Φ (f a) (g a)) :
    ∀ xs : List α, Φ (xs.mapM f) (xs.mapM g)
  | [] => by
    exact h.pure _
  | x :: xs => by
    rw [mapM_cons, mapM_cons]
    exact h.bind (hf x) fun _ => h.bind (mapM hf xs) fun _ => h.pure _

end

namespace Growth

variable (g : Growth R)
include g

theorem keeps_parallel : Parallel (ε := ε) (fun _ => True) fun x _ => Keeps R x :=
  g.closed_keeps.parallel _

theorem leads_parallel : Parallel (ε := ε) (fun _ => True) fun x _ => Leads R x :=
  g.closed_leads.parallel _

theorem foldlM {f : β → α → EStateM ε σ β} (hf : ∀ b a, Keeps R (f b a))
    (xs : List α) (b : β) : Keeps R (xs.foldlM f b) :=
  g.keeps_parallel.foldlM (g := f) (fun b a _ => hf b a) b

end Growth

end

end DeviceCode
