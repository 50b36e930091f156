import DeviceCode.Proofs.Registry.Blocked
import DeviceCode.Proofs.Registry.LinkErrors

/-!
# Which methods become blocked

A method is blocked because it cannot be written in C or because it calls a blocked one.
`ReachesBlocked` is the least set of methods that holds the blocked ones and is closed under callers.
`Rounds` is the search of the link without a bound on its rounds. What one look at a method changes
(`spreads_blockCaller`) is carried through a round and from round to round, so nothing outside the least
set is blocked; that nothing of it is left out is what `callersBlocked_blockCallers` says. Main
statement: `blocked_exactly_if_reaches`.
-/

namespace DeviceCode

variable {r : Registry} {i : Nat} {m : CompiledMethod}

namespace Registry

/-- A blocked method can be reached from the method through the calls of the registry. -/
inductive ReachesBlocked (r : Registry) : Nat → Prop where
  | blocked {i : Nat} : r.isBlocked i = true → ReachesBlocked r i
  | calls {i k : Nat} {m : CompiledMethod} : r.methods[i]? = some m → k ∈ m.callees →
    ReachesBlocked r k → ReachesBlocked r i

/-- Going through the methods round after round until a round changes nothing. -/
inductive Rounds : Registry → Registry → Prop where
  | done {r r' : Registry} :
    (List.range r.methods.size).foldl blockCaller (r, false) = (r', false) → Rounds r r'
  | again {r r₁ r' : Registry} :
    (List.range r.methods.size).foldl blockCaller (r, false) = (r₁, true) → Rounds r₁ r' →
    Rounds r r'

/-- **The search comes to an end**, and within the bound. -/
theorem rounds_blockCallersWithin : ∀ (bound : Nat) (r : Registry), r.unblocked.card < bound →
    Rounds r (blockCallersWithin bound r)
  | 0, _, h => absurd h (Nat.not_lt_zero _)
  | n + 1, r, h => by
    obtain ⟨-, hround⟩ := blockCaller_round (List.range r.methods.size) (r, false)
    unfold blockCallersWithin
    split
    · rename_i r₁ heq
      rw [heq] at hround
      have hless : r₁.unblocked.card < r.unblocked.card := hround.resolve_left (by simp)
      exact .again heq (rounds_blockCallersWithin n r₁ (by omega))
    · rename_i r' heq
      exact .done heq

theorem rounds_blockCallers (r : Registry) : Rounds r r.blockCallers :=
  rounds_blockCallersWithin _ r (Nat.lt_succ_of_le (card_unblocked_le r))

/-! ## What is blocked -/

/-- The method has become blocked for a call of a blocked one. -/
def BlockedFor (r : Registry) (m m' : CompiledMethod) : Prop :=
  m.cStatus.isBlocked = false ∧ ∃ k ∈ m.callees, ∃ callee, r.methods[k]? = some callee ∧
    callee.cStatus.isBlocked = true ∧
    m' = { m with cStatus := .blocked (.reachesBlocked callee.name) }

/-- Methods have become blocked for calls of blocked ones, and nothing else has changed. -/
structure Spreads (r r' : Registry) : Prop where
  rest : ∃ methods, r' = { r with methods }
  size : r'.methods.size = r.methods.size
  entry : ∀ (i : Nat) m, r.methods[i]? = some m → ∃ m', r'.methods[i]? = some m' ∧
    (m' = m ∨ BlockedFor r' m m')
  sound : ∀ i, r'.isBlocked i = true → ReachesBlocked r i

theorem isBlocked_of_getElem? (hm : r.methods[i]? = some m) :
    r.isBlocked i = m.cStatus.isBlocked := by
  rw [isBlocked, hm]

theorem exists_of_isBlocked (h : r.isBlocked i = true) :
    ∃ m, r.methods[i]? = some m ∧ m.cStatus.isBlocked = true := by
  unfold isBlocked at h
  split at h
  · rename_i m hm
    exact ⟨m, hm, h⟩
  · cases h

namespace Spreads

variable {r' r'' : Registry}

theorem kept (h : Spreads r r') (hm : r.methods[i]? = some m)
    (hblocked : m.cStatus.isBlocked = true) : r'.methods[i]? = some m := by
  obtain ⟨m', hm', rfl | ⟨hnot, -⟩⟩ := h.entry i m hm
  · exact hm'
  · rw [hblocked] at hnot
    cases hnot

theorem origin (h : Spreads r r') {m' : CompiledMethod} (hm' : r'.methods[i]? = some m') :
    ∃ m status, r.methods[i]? = some m ∧ m' = { m with cStatus := status } := by
  have hi : i < r.methods.size := h.size ▸ (Array.getElem?_eq_some_iff.1 hm').1
  have hm := Array.getElem?_eq_getElem hi
  obtain ⟨m'', hm'', heq⟩ := h.entry i _ hm
  obtain rfl := Option.some.inj (hm'.symm.trans hm'')
  obtain rfl | ⟨-, _, -, _, -, -, rfl⟩ := heq
  · exact ⟨_, _, hm, rfl⟩
  · exact ⟨_, _, hm, rfl⟩

theorem reaches (h : Spreads r r') (hi : ReachesBlocked r' i) : ReachesBlocked r i := by
  induction hi with
  | blocked hi => exact h.sound _ hi
  | calls hm hk _ ih =>
    obtain ⟨m₀, status, hm₀, rfl⟩ := h.origin hm
    exact .calls hm₀ hk ih

theorem refl (r : Registry) : Spreads r r :=
  ⟨⟨r.methods, rfl⟩, rfl, fun _ m hm => ⟨m, hm, .inl rfl⟩, fun _ hi => .blocked hi⟩

theorem trans (h₁ : Spreads r r') (h₂ : Spreads r' r'') : Spreads r r'' where
  rest := by
    obtain ⟨methods, rfl⟩ := h₁.rest
    obtain ⟨methods', rfl⟩ := h₂.rest
    exact ⟨methods', rfl⟩
  size := h₂.size.trans h₁.size
  entry i m hm := by
    obtain ⟨m', hm', hfirst⟩ := h₁.entry i m hm
    obtain ⟨m'', hm'', hsecond⟩ := h₂.entry i m' hm'
    refine ⟨m'', hm'', ?_⟩
    obtain rfl | ⟨hnot, k, hk, callee, hcallee, hblocked, rfl⟩ := hfirst
    · exact hsecond
    · -- what is blocked already stays, and so does the method that it is blocked for
      obtain rfl | ⟨hnot', -⟩ := hsecond
      · exact .inr ⟨hnot, k, hk, callee, h₂.kept hcallee hblocked, hblocked, rfl⟩
      · cases hnot'
  sound i hi := h₁.reaches (h₂.sound i hi)

end Spreads

theorem growth_spreads : Growth Spreads := ⟨Spreads.refl, Spreads.trans⟩

theorem spreads_block {k : Nat} {callee : CompiledMethod} (hm : r.methods[i]? = some m)
    (hnot : m.cStatus.isBlocked = false) (hk : k ∈ m.callees)
    (hcallee : r.methods[k]? = some callee) (hblocked : callee.cStatus.isBlocked = true) :
    Spreads r (r.block i (.reachesBlocked callee.name)) := by
  have hentry : ∀ j, (r.block i (.reachesBlocked callee.name)).methods[j]? =
      if i = j then some { m with cStatus := .blocked (.reachesBlocked callee.name) }
      else r.methods[j]? := by
    intro j
    rw [block, modifyMethod, Array.getElem?_modify]
    split
    · rename_i heq
      rw [← heq, hm, Option.map_some, if_neg (by simp [hnot])]
    · rfl
  have hki : i ≠ k := fun heq => by
    rw [← heq, hm] at hcallee
    cases hcallee
    rw [hnot] at hblocked
    cases hblocked
  refine ⟨⟨_, rfl⟩, by simp [block, modifyMethod], fun j mj hmj => ?_, fun j hj => ?_⟩
  · rw [hentry]
    split
    · rename_i heq
      rw [← heq, hm] at hmj
      cases hmj
      exact ⟨_, rfl, .inr ⟨hnot, k, hk, callee, by rw [hentry, if_neg hki, hcallee], hblocked, rfl⟩⟩
    · exact ⟨mj, hmj, .inl rfl⟩
  · by_cases heq : i = j
    · exact heq ▸ .calls hm hk (.blocked (by rw [isBlocked_of_getElem? hcallee, hblocked]))
    · obtain ⟨mj, hmj, hmj'⟩ := exists_of_isBlocked hj
      rw [hentry, if_neg heq] at hmj
      exact .blocked (by rw [isBlocked_of_getElem? hmj, hmj'])

/-- **One look at a method** blocks it if it calls a blocked one. -/
theorem spreads_blockCaller (state : Registry × Bool) (i : Nat) :
    Spreads state.1 (blockCaller state i).1 := by
  unfold blockCaller
  dsimp only
  split
  · exact .refl _
  · rename_i m hm
    split
    · exact .refl _
    · rename_i hnot
      split
      · exact .refl _
      · rename_i callee hcallee
        obtain ⟨k, hfind, hk⟩ := Option.bind_eq_some_iff.1 hcallee
        have hblocked := List.find?_some hfind
        rw [isBlocked_of_getElem? hk] at hblocked
        exact spreads_block hm (Bool.not_eq_true _ ▸ hnot) (List.mem_of_find?_eq_some hfind) hk hblocked

theorem spreads_blockCallers (r : Registry) : Spreads r r.blockCallers :=
  blockCallersWithin_of_blockCaller growth_spreads spreads_blockCaller _ r

/-- **Blocked are the methods that reach a blocked one**, and no others. -/
theorem isBlocked_blockCallers_iff : r.blockCallers.isBlocked i = true ↔ ReachesBlocked r i := by
  have hspreads := spreads_blockCallers r
  refine ⟨hspreads.sound i, fun hreaches => ?_⟩
  induction hreaches with
  | blocked hblocked =>
    obtain ⟨m, hm, hmb⟩ := exists_of_isBlocked hblocked
    rw [isBlocked_of_getElem? (hspreads.kept hm hmb), hmb]
  | @calls i k m hm hk _ ih =>
    obtain ⟨m', hm', rfl | ⟨-, _, -, _, -, -, rfl⟩⟩ := hspreads.entry i m hm
    · rw [isBlocked_of_getElem? hm']
      by_contra hnot
      -- a method that is left calls no blocked one
      have hfree := callersBlocked_blockCallers r i m' hm' (Bool.not_eq_true _ ▸ hnot) k hk
      rw [ih] at hfree
      cases hfree
    · rw [isBlocked_of_getElem? hm']
      rfl

/-- Two methods that call each other are blocked with the method that one of them calls. -/
example :
    let method (callees : List Nat) (cStatus : CStatus) : CompiledMethod :=
      { (default : CompiledMethod) with callees, cStatus }
    let r : Registry := { methods := #[method [1] .undecided, method [0, 2] .undecided,
      method [] (.blocked (.reachesBlocked "F")), method [3] .undecided] }
    (List.range 4).map r.blockCallers.isBlocked = [true, true, true, false] := by
  decide

/-! ## When the link refuses -/

/-- The method is the first that must run as native code and reaches a blocked one. -/
structure FirstNative (r : Registry) (i : Nat) (m : CompiledMethod) : Prop where
  entry : r.methods[i]? = some m
  native : m.requiresNative = true
  reaches : ReachesBlocked r i
  first : ∀ j < i, ∀ m', r.methods[j]? = some m' → m'.requiresNative = true → ¬ReachesBlocked r j

theorem checkNative_ok (h : r.checkNative = .ok ()) (hm : m ∈ r.methods)
    (hnative : m.requiresNative = true) : m.cStatus.isBlocked = false := by
  unfold checkNative at h
  split at h
  · rename_i hnone
    have hm' := Array.findSome?_eq_none_iff.1 hnone m hm
    rw [if_pos hnative, Option.map_eq_none_iff] at hm'
    rw [CStatus.isBlocked, hm']
    rfl
  · cases h

theorem checkNative_error {e : CompileError} (h : r.checkNative = .error e) :
    ∃ (i : Nat) (m : CompiledMethod) (obstacle : CObstacle), r.methods[i]? = some m ∧
      m.requiresNative = true ∧ m.cStatus.reason? = some obstacle ∧
      e = .nativeCodeRequired m.name obstacle.message ∧
      ∀ j < i, ∀ m', r.methods[j]? = some m' → m'.requiresNative = true →
        m'.cStatus.isBlocked = false := by
  unfold checkNative at h
  split at h
  · cases h
  · rename_i name obstacle hfind
    cases h
    rw [← Array.findSome?_toList] at hfind
    obtain ⟨before, m, after, hsplit, hm, hbefore⟩ := List.findSome?_eq_some_iff.1 hfind
    split at hm
    · rename_i hnative
      obtain ⟨obstacle', hreason, heq⟩ := Option.map_eq_some_iff.1 hm
      cases heq
      refine ⟨before.length, m, obstacle, ?_, hnative, hreason, rfl, fun j hj m' hm' hnative' => ?_⟩
      · rw [← Array.getElem?_toList, hsplit]
        simp
      · rw [← Array.getElem?_toList, hsplit, List.getElem?_append_left hj] at hm'
        have hnone := hbefore m' (List.mem_of_getElem? hm')
        rw [if_pos hnative', Option.map_eq_none_iff] at hnone
        rw [CStatus.isBlocked, hnone]
        rfl
    · cases hm

/-- Once the callers of blocked methods are blocked, the check names the first method that must run as
native code and reached a blocked one. -/
theorem firstNative_of_checkNative {e : CompileError} (h : r.blockCallers.checkNative = .error e) :
    ∃ i m m' obstacle, FirstNative r i m ∧
      r.blockCallers.methods[i]? = some m' ∧ m'.cStatus.reason? = some obstacle ∧
      e = .nativeCodeRequired m.name obstacle.message := by
  obtain ⟨i, m', obstacle, hm', hnative, hreason, rfl, hfirst⟩ := checkNative_error h
  obtain ⟨m, status, hm, rfl⟩ := (spreads_blockCallers r).origin hm'
  have hreaches : ReachesBlocked r i := isBlocked_blockCallers_iff.1 (by
    rw [isBlocked_of_getElem? hm', CStatus.isBlocked, hreason]
    rfl)
  refine ⟨i, m, _, obstacle, ⟨hm, hnative, hreaches, ?_⟩, hm', hreason, rfl⟩
  intro j hj mj hmj hnativej hreachesj
  obtain ⟨status, hmj', -⟩ := (blocks_blockCallers r).entry j mj hmj
  have hfree := hfirst j hj _ hmj' hnativej
  rw [← isBlocked_of_getElem? hmj', isBlocked_blockCallers_iff.2 hreachesj] at hfree
  cases hfree

theorem checkNative_of_reaches (hm : r.methods[i]? = some m) (hnative : m.requiresNative = true)
    (hi : ReachesBlocked r i) : ∃ e, r.blockCallers.checkNative = .error e := by
  cases hcheck : r.blockCallers.checkNative with
  | error e => exact ⟨e, rfl⟩
  | ok _ =>
    obtain ⟨status, hm', -⟩ := (blocks_blockCallers r).entry i m hm
    have hfree := checkNative_ok hcheck (Array.mem_of_getElem? hm') hnative
    rw [← isBlocked_of_getElem? hm', isBlocked_blockCallers_iff.2 hi] at hfree
    cases hfree

/-- **The methods that the link blocks** are those from which a blocked one can be reached, and the link
asks for native code exactly if a method that must run as such is among them; it names the first. -/
theorem blocked_exactly_if_reaches (c : BuildContext) (r₀ : Registry) :
    (∀ r : Registry, Rounds r r.blockCallers ∧
      (∃ methods, r.blockCallers = { r with methods }) ∧
      r.blockCallers.methods.size = r.methods.size ∧
      ∀ (i : Nat) m, r.methods[i]? = some m → ∃ m', r.blockCallers.methods[i]? = some m' ∧
        (m'.cStatus.isBlocked = true ↔ ReachesBlocked r i) ∧
        (m.cStatus.isBlocked = true → m' = m) ∧
        (m'.cStatus.isBlocked = true → m'.cStatus.plan? = none) ∧
        (m'.cStatus.isBlocked = false → m' = m) ∧
        (m' = m ∨ BlockedFor r.blockCallers m m')) ∧
    ((∃ name reason r', link c r₀ = .error (.nativeCodeRequired name reason) r') ↔
      ∃ iterations r, bindSlots c r₀ = .ok iterations r ∧
        ∃ (i : Nat) (m : CompiledMethod), r.methods[i]? = some m ∧ m.requiresNative = true ∧
          ReachesBlocked r i) ∧
    ∀ name reason r', link c r₀ = .error (.nativeCodeRequired name reason) r' →
      ∃ iterations r i m m', bindSlots c r₀ = .ok iterations r ∧ FirstNative r i m ∧
        r.blockCallers.methods[i]? = some m' ∧ m.name = name ∧
        m'.cStatus.reason?.map CObstacle.message = some reason := by
  refine ⟨fun r => ?_, ⟨?_, ?_⟩, ?_⟩
  · have hspreads := spreads_blockCallers r
    refine ⟨rounds_blockCallers r, hspreads.rest, hspreads.size, fun i m hm => ?_⟩
    obtain ⟨m', hm', hentry⟩ := hspreads.entry i m hm
    refine ⟨m', hm', ?_, fun hblocked => ?_, fun hblocked => ?_, fun hfree => ?_, hentry⟩
    · rw [← isBlocked_of_getElem? hm', isBlocked_blockCallers_iff]
    · exact Option.some.inj (hm'.symm.trans (hspreads.kept hm hblocked))
    · unfold CStatus.isBlocked CStatus.reason? at hblocked
      split at hblocked
      · rename_i heq
        rw [heq]
        rfl
      · cases hblocked
    · obtain rfl | ⟨-, _, -, _, -, -, rfl⟩ := hentry
      · rfl
      · cases hfree
  · rintro ⟨name, reason, hlink⟩
    obtain ⟨iterations, r, hbind, hcheck⟩ := link_native_iff.1 hlink
    obtain ⟨i, m, -, -, hfirst, -⟩ := firstNative_of_checkNative hcheck
    exact ⟨iterations, r, hbind, i, m, hfirst.entry, hfirst.native, hfirst.reaches⟩
  · rintro ⟨iterations, r, hbind, i, m, hm, hnative, hreaches⟩
    obtain ⟨e, hcheck⟩ := checkNative_of_reaches hm hnative hreaches
    obtain ⟨-, first, -, obstacle, -, -, -, heq⟩ := firstNative_of_checkNative hcheck
    rw [heq] at hcheck
    exact ⟨first.name, obstacle.message, link_native_iff.2 ⟨iterations, r, hbind, hcheck⟩⟩
  · intro name reason r' hlink
    obtain ⟨iterations, r, hbind, hcheck⟩ := link_native_iff.1 ⟨r', hlink⟩
    obtain ⟨i, m, m', obstacle, hfirst, hm', hreason, heq⟩ := firstNative_of_checkNative hcheck
    cases heq
    exact ⟨iterations, r, i, m, m', hbind, hfirst, hm', rfl, by rw [hreason]; rfl⟩

end Registry

end DeviceCode
