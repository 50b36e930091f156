import DeviceCode.Proofs.Outcome
import Mathlib.Data.Finset.Card

/-!
# How deep computations nest

A computation that calls itself takes a bound on how deep the calls nest. The bound does not matter
where every call takes up one of finitely many keys before it calls itself: `unseen` counts the keys
that are left. `Agree E I room n x y`: from a state of `I` in which `room` is below `n`, both
computations end alike and with no error outside `E`, and they leave a state of `I` with no more room.
Two sequences agree if their parts do (`parallel_agree`), so two nested computations agree with bounds
above the room by induction on the bound.
-/

namespace DeviceCode

section
variable {ε σ α β : Type}

/-! ## Computations that agree -/

/-- From the state both computations end alike and with no error outside `E`; if they end well, it is
in a state of `I` with no more room. -/
structure AgreeAt (E : ε → Prop) (I : σ → Prop) (room : σ → Nat) (x y : EStateM ε σ α) (s : σ) :
    Prop where
  same : x s = y s
  ok : ∀ {a t}, x s = .ok a t → I t ∧ room t ≤ room s
  error : ∀ {e t}, x s = .error e t → E e

/-- The computations agree from the states of `I` in which the room is below `n`. -/
def Agree (E : ε → Prop) (I : σ → Prop) (room : σ → Nat) (n : Nat) (x y : EStateM ε σ α) : Prop :=
  ∀ s, I s → room s < n → AgreeAt E I room x y s

variable {E : ε → Prop} {I : σ → Prop} {room : σ → Nat} {n : Nat} {x y : EStateM ε σ α} {a : α} {e : ε}
  {t : σ}

variable {s : σ}

theorem agreeAt_pure (hs : I s) :
    AgreeAt E I room (pure a : EStateM ε σ α) (pure a) s where
  same := rfl
  ok h := by
    obtain ⟨-, rfl⟩ := state_pure_ok.1 h
    exact ⟨hs, Nat.le_refl _⟩
  error h := by cases h

theorem agreeAt_throw (he : E e) :
    AgreeAt E I room (throw e : EStateM ε σ α) (throw e) s where
  same := rfl
  ok h := by simp at h
  error h := by
    cases h
    exact he

theorem AgreeAt.step {f g : α → EStateM ε σ β}
    (hx : x s = .ok a t) (hy : y s = .ok a t) (hroom : room t ≤ room s)
    (h : AgreeAt E I room (f a) (g a) t) : AgreeAt E I room (x >>= f) (y >>= g) s where
  same := by rw [state_bind_of_ok hx, state_bind_of_ok hy, h.same]
  ok hok := by
    rw [state_bind_of_ok hx] at hok
    obtain ⟨hI, hle⟩ := h.ok hok
    exact ⟨hI, Nat.le_trans hle hroom⟩
  error herror := by
    rw [state_bind_of_ok hx] at herror
    exact h.error herror

theorem AgreeAt.bind {f g : α → EStateM ε σ β} (hx : AgreeAt E I room x y s)
    (hf : ∀ a t, x s = .ok a t → AgreeAt E I room (f a) (g a) t) :
    AgreeAt E I room (x >>= f) (y >>= g) s := by
  cases h : x s with
  | ok a t => exact .step h (hx.same ▸ h) (hx.ok h).2 (hf a t h)
  | error e t =>
    have hy : y s = .error e t := hx.same ▸ h
    refine ⟨?_, fun hok => ?_, fun herror => ?_⟩
    · rw [state_bind_of_error h, state_bind_of_error hy]
    · rw [state_bind_of_error h] at hok
      cases hok
    · rw [state_bind_of_error h] at herror
      cases herror
      exact hx.error h

theorem parallel_agree : Parallel E fun x y => Agree E I room n x y where
  pure _ _ hs _ := agreeAt_pure hs
  throw he _ _ _ := agreeAt_throw he
  get s hs _ := ⟨rfl, fun h => by
    obtain ⟨-, rfl⟩ := state_get_ok.1 h
    exact ⟨hs, Nat.le_refl _⟩, fun h => by cases h⟩
  bind_of hx hf s hs hroom := (hx s hs hroom).bind fun a t h =>
    hf s a t h t ((hx s hs hroom).ok h).1 (Nat.lt_of_le_of_lt ((hx s hs hroom).ok h).2 hroom)

theorem agree_modify {f : σ → σ} (hf : ∀ s, I s → I (f s) ∧ room (f s) ≤ room s) :
    Agree E I room n (modify f : EStateM ε σ PUnit) (modify f) := fun s hs _ =>
  ⟨rfl, fun h => by
    rw [← state_modify_ok.1 h]
    exact hf s hs, fun h => by cases h⟩

/-- A computation that is compared with itself. -/
def Proceeds (E : ε → Prop) (I : σ → Prop) (x : EStateM ε σ α) : Prop :=
  Agree E I (fun _ => 0) 1 x x

theorem parallel_proceeds : Parallel E fun x y => Agree E I (fun _ => 0) 1 x y := parallel_agree

theorem Agree.proceeds (h : Agree E I room n x y)
    (hroom : ∀ s, I s → room s < n) : Proceeds E I x := fun s hs _ =>
  ⟨rfl, fun hok => ⟨((h s hs (hroom s hs)).ok hok).1, Nat.le_refl _⟩, (h s hs (hroom s hs)).error⟩

theorem Proceeds.ok (h : Proceeds E I x) (hs : I s)
    (hx : x s = .ok a t) : I t := ((h s hs Nat.zero_lt_one).ok hx).1

theorem error_of_agreeAt
    (h : AgreeAt E I (fun _ => 0) x x s) (hx : x s = .error e t) : E e := h.error hx

theorem Proceeds.error (h : Proceeds E I x) (hs : I s)
    (hx : x s = .error e t) : E e := error_of_agreeAt (h s hs Nat.zero_lt_one) hx

end

/-! ## Bounds that do not matter -/

section
variable {ε σ α : Type}

/-- From the state, the nested computation comes to the same as `x` with every bound above the limit,
and with no error outside `E`. -/
structure NestsWithin (E : ε → Prop) (limit : Nat) (nested : Nat → EStateM ε σ α)
    (x : EStateM ε σ α) (s : σ) : Prop where
  same : ∀ n, limit < n → nested n s = x s
  error : ∀ e t, x s = .error e t → E e

/-- The room is a limit, if the computation agrees with itself for all bounds above it. -/
theorem nestsWithin_of_agree {E : ε → Prop} {I : σ → Prop} {room : σ → Nat} {limit bound : Nat}
    {nested : Nat → EStateM ε σ α} (hs : I s) (hlimit : room s ≤ limit) (hbound : room s < bound)
    (h : ∀ {k n n'}, k ≤ n → k ≤ n' → Agree E I room k (nested n) (nested n')) :
    NestsWithin E limit nested (nested bound) s where
  same n hn := (h (Nat.min_le_left n bound) (Nat.min_le_right n bound) s hs (by omega)).same
  error _ _ herror := (h (Nat.le_refl bound) (Nat.le_refl bound) s hs hbound).error herror

end

/-! ## Keys that are left -/

section
variable {κ : Type} (keys : Finset κ)

/-- The number of the keys that have not been seen. -/
def unseen (seen : κ → Prop) [DecidablePred seen] : Nat := (keys.filter fun k => ¬seen k).card

variable {keys} {seen seen' : κ → Prop} [DecidablePred seen] [DecidablePred seen']

theorem unseen_le_card : unseen keys seen ≤ keys.card := Finset.card_filter_le _ _

theorem unseen_le (h : ∀ k, seen k → seen' k) : unseen keys seen' ≤ unseen keys seen :=
  Finset.card_le_card fun k hk => by
    rw [Finset.mem_filter] at hk ⊢
    exact ⟨hk.1, fun hseen => hk.2 (h k hseen)⟩

theorem unseen_lt (h : ∀ k, seen k → seen' k) {k : κ} (hk : k ∈ keys) (hnew : ¬seen k)
    (hseen : seen' k) : unseen keys seen' < unseen keys seen := by
  refine Finset.card_lt_card ((Finset.ssubset_iff_of_subset fun k hk => ?_).2
    ⟨k, Finset.mem_filter.2 ⟨hk, hnew⟩, fun hmem => (Finset.mem_filter.1 hmem).2 hseen⟩)
  rw [Finset.mem_filter] at hk ⊢
  exact ⟨hk.1, fun hs => hk.2 (h k hs)⟩

end

end DeviceCode
