import DeviceCode.Proofs.LinkedCode
import DeviceCode.Proofs.Registry.Identity
import Mathlib.Data.List.ProdSigma
import Mathlib.Data.Prod.Basic

/-!
# Dispatch is a fixed point

Binding a class to a slot compiles a method, and that can bring up more slots and more classes while
there are pairs in the queue. `BindQueue.covers_extend`: the queue and what was taken from it always hold
every pair of a slot and a class that are known to it, and none twice. `Registry.Binding done r`: the
slots of `r` are bound to what the pairs in `done` say; `Binding.bind` keeps it when one more pair is
looked at. Main statement: `dispatch_complete`, a link looks at every pair just once, and every slot is
bound to just the classes that implement it.
-/

namespace DeviceCode

open List

variable {pairs done : List (Nat × Nat)} {slots classes k i bound remaining : Nat}
  {s slot : VirtualSlot} {q : BindQueue} {r r' : Registry} {e : String × TypeRef} {key : String}
  {type : TypeRef} {p : Program} {c : BuildContext} {u : Unit}

/-! ## The queue -/

/-- The pairs of the slots and the classes below the two bounds, each once and in any order. -/
def Covers (pairs : List (Nat × Nat)) (slots classes : Nat) : Prop :=
  pairs.Perm (List.range slots ×ˢ List.range classes)

theorem Covers.nodup (h : Covers pairs slots classes) : pairs.Nodup :=
  h.nodup_iff.2 (nodup_range.product nodup_range)

theorem Covers.mem {s : Nat} (h : Covers pairs slots classes) :
    (s, k) ∈ pairs ↔ s < slots ∧ k < classes := by
  rw [h.mem_iff, mem_product, mem_range, mem_range]

theorem Covers.length (h : Covers pairs slots classes) : pairs.length = slots * classes := by
  rw [h.length_eq, length_product, length_range, length_range]

theorem covers_of (hnodup : pairs.Nodup) (hmem : ∀ s k, (s, k) ∈ pairs ↔ s < slots ∧ k < classes) :
    Covers pairs slots classes := by
  refine (perm_ext_iff_of_nodup hnodup (nodup_range.product nodup_range)).2 ?_
  rintro ⟨s, k⟩
  rw [hmem, mem_product, mem_range, mem_range]

namespace BindQueue

/-- The pairs of the first slots with classes that came later. -/
def ofClasses (slots : List Nat) (classes : List Nat) : List (Nat × Nat) :=
  classes.flatMap fun k => slots.map fun s => (s, k)

theorem mem_ofClasses {slots classes : List Nat} {s : Nat} :
    (s, k) ∈ ofClasses slots classes ↔ s ∈ slots ∧ k ∈ classes := by
  simp only [ofClasses, mem_flatMap, mem_map, Prod.mk.injEq]
  constructor
  · rintro ⟨k, hk, s, hs, rfl, rfl⟩
    exact ⟨hs, hk⟩
  · rintro ⟨hs, hk⟩
    exact ⟨k, hk, s, hs, rfl, rfl⟩

theorem nodup_ofClasses {slots classes : List Nat} (hs : slots.Nodup) (hk : classes.Nodup) :
    (ofClasses slots classes).Nodup := by
  have hswap : ofClasses slots classes = (classes ×ˢ slots).map Prod.swap := by
    show _ = (classes.flatMap fun k => slots.map (Prod.mk k)).map Prod.swap
    rw [map_flatMap]
    simp only [map_map]
    rfl
  rw [hswap]
  exact (hk.product hs).map Prod.swap_injective

theorem pairs_extend (q : BindQueue) (slots classes : Nat) : (q.extend slots classes).pairs =
    q.pairs ++ (List.range' q.slots (slots - q.slots) ×ˢ List.range classes ++
      ofClasses (List.range q.slots) (List.range' q.classes (classes - q.classes))) := by
  unfold extend
  dsimp only
  split
  · rename_i h
    exact (append_nil _).symm.trans (congrArg (q.pairs ++ ·) h.symm)
  · rfl

theorem size_extend (q : BindQueue) (slots classes : Nat) :
    (q.extend slots classes).slots = slots ∧ (q.extend slots classes).classes = classes := by
  unfold extend
  dsimp only
  split <;> exact ⟨rfl, rfl⟩

/-- **No pair is lost and none comes twice** when slots and classes are added: the new slots come with
all classes, and the new classes with the slots that were there. -/
theorem covers_extend (h : Covers (done ++ q.pairs) q.slots q.classes) (hslots : q.slots ≤ slots)
    (hclasses : q.classes ≤ classes) :
    Covers (done ++ (q.extend slots classes).pairs) slots classes := by
  have hold := @h.mem
  have hnew : ∀ s k, (s, k) ∈ range' q.slots (slots - q.slots) ×ˢ range classes ↔
      q.slots ≤ s ∧ s < slots ∧ k < classes := by
    intro s k
    rw [mem_product, mem_range'_1, mem_range]
    omega
  have hlater : ∀ s k,
      (s, k) ∈ ofClasses (range q.slots) (range' q.classes (classes - q.classes)) ↔
        s < q.slots ∧ q.classes ≤ k ∧ k < classes := by
    intro s k
    rw [mem_ofClasses, mem_range'_1, mem_range]
    omega
  rw [pairs_extend, ← append_assoc]
  refine covers_of ?_ fun s k => ?_
  · refine nodup_append.2 ⟨h.nodup, nodup_append.2
      ⟨(nodup_range' 1).product nodup_range,
        nodup_ofClasses nodup_range (nodup_range' 1), ?_⟩, ?_⟩
    · rintro ⟨s, k⟩ hs ⟨s', k'⟩ hs' heq
      cases heq
      rw [hnew] at hs
      rw [hlater] at hs'
      omega
    · rintro ⟨s, k⟩ hs ⟨s', k'⟩ hs' heq
      cases heq
      rw [hold] at hs
      rw [mem_append, hnew, hlater] at hs'
      omega
  · rw [mem_append, hold, mem_append, hnew, hlater]
    omega

end BindQueue

namespace Registry

/-! ## Slots and classes that are found -/

/-- Slots and classes may have been found, and no class has been bound. -/
structure Discovers (r r' : Registry) : Prop where
  slots : ∃ new, r'.slots.toList = r.slots.toList ++ new ∧ ∀ s ∈ new, s.implementors = []
  classes : r.classes.toList <+: r'.classes.toList
  distinct : (r.classes.toList.map (·.1)).Nodup → (r'.classes.toList.map (·.1)).Nodup

theorem growth_discovers : Growth Discovers where
  refl r := ⟨⟨[], by simp, by simp⟩, prefix_rfl, id⟩
  trans h₁ h₂ := by
    obtain ⟨new₁, e₁, hnew₁⟩ := h₁.slots
    obtain ⟨new₂, e₂, hnew₂⟩ := h₂.slots
    refine ⟨⟨new₁ ++ new₂, by rw [e₂, e₁, append_assoc], fun s hs => ?_⟩,
      h₁.classes.trans h₂.classes, fun h => h₂.distinct (h₁.distinct h)⟩
    exact (mem_append.1 hs).elim (hnew₁ s) (hnew₂ s)

theorem Discovers.of_eq (hslots : r'.slots = r.slots) (hclasses : r'.classes = r.classes) :
    Discovers r r' :=
  ⟨⟨[], by simp [hslots], by simp⟩, hclasses ▸ prefix_rfl, fun h => hclasses ▸ h⟩

theorem discovers_discoverClass (p : Program) (t : TypeRef) (r : Registry) :
    Discovers r (r.discoverClass p t) := by
  unfold discoverClass
  dsimp only
  split
  · exact growth_discovers.refl r
  · rename_i hnew
    refine ⟨⟨[], by simp, by simp⟩, by simp, fun h => ?_⟩
    simp only [Array.toList_push, map_append, map_cons, map_nil]
    refine nodup_append.2 ⟨h, by simp, fun key hkey key' hkey' => ?_⟩
    rw [mem_singleton] at hkey'
    rintro rfl
    obtain ⟨e, he, rfl⟩ := mem_map.1 hkey
    refine hnew (Array.any_eq_true'.2 ⟨e, by simpa using he, ?_⟩)
    rw [hkey', beq_self_eq_true]

theorem discovers_internSlot (hs : s.implementors = []) : Keeps Discovers (internSlot s) := by
  intro r
  obtain ⟨i, -, h⟩ | ⟨-, h⟩ := internSlot_cases s r
  · rw [stateAfter_ok h]
    exact growth_discovers.refl r
  · rw [stateAfter_ok h]
    exact ⟨⟨[s], by simp, by simpa using hs⟩, prefix_rfl, id⟩

/-- **Compiling binds no class.** -/
theorem discovers_compileWithin (c : BuildContext) (fuel : Nat) (id : MethodId) (args : List TypeRef) :
    Keeps Discovers (compileWithin c fuel id args) := by
  have root : ∀ t r, Discovers r (r.addLayoutRoot t) := by
    intro t r
    unfold addLayoutRoot
    split <;> exact Discovers.of_eq rfl rfl
  refine keeps_compileWithin_of growth_discovers (fun _ _ => Discovers.of_eq rfl rfl)
    (fun _ _ => Discovers.of_eq rfl rfl) root (fun l _ hcompile => ?_) fuel id args
  exact {
    growth := growth_discovers
    compile := hcompile
    field := fun f r => by
      unfold recordField
      split <;> exact Discovers.of_eq rfl rfl
    discover := discovers_discoverClass l.program
    root
    slot := fun _ hs => discovers_internSlot hs
    fixups := fun _ _ => Discovers.of_eq rfl rfl }

section
variable (h : Discovers r r')
include h

theorem Discovers.getElem?_slots (hs : r'.slots[i]? = some s) :
    r.slots[i]? = some s ∨ r.slots.size ≤ i ∧ s.implementors = [] := by
  obtain ⟨new, hnew, hempty⟩ := h.slots
  rw [← Array.getElem?_toList, hnew] at hs
  by_cases hi : i < r.slots.size
  · rw [getElem?_append_left (by simpa using hi), Array.getElem?_toList] at hs
    exact .inl hs
  · rw [getElem?_append_right (by simpa using hi)] at hs
    exact .inr ⟨by omega, hempty s (mem_of_getElem? hs)⟩

theorem Discovers.getElem?_classes (hk : k < r.classes.size) : r'.classes[k]? = r.classes[k]? := by
  obtain ⟨new, hnew⟩ := h.classes
  rw [← Array.getElem?_toList, ← Array.getElem?_toList, ← hnew]
  exact getElem?_append_left (by simpa using hk)

theorem Discovers.size_le : r.slots.size ≤ r'.slots.size ∧ r.classes.size ≤ r'.classes.size := by
  obtain ⟨new, hnew, -⟩ := h.slots
  have hslots := congrArg length hnew
  have hclasses := h.classes.length_le
  rw [length_append] at hslots
  simp only [Array.length_toList] at hslots hclasses
  exact ⟨by omega, hclasses⟩

end

/-! ## Binding one pair after the other -/

/-- The slot is bound to just the classes in `seen` that implement it, to each once, and each runs the
method that is kept under the signature of its implementation. -/
structure Bound (p : Program) (r : Registry) (seen : String × TypeRef → Prop) (slot : VirtualSlot) :
    Prop where
  once : (slot.implementors.map (·.1)).Nodup
  classes : ∀ key, key ∈ slot.implementors.map (·.1) ↔
    ∃ type found, seen (key, type) ∧ slot.implementation p type = .ok (some found)
  methods : ∀ key index type id args, (key, index) ∈ slot.implementors → seen (key, type) →
    slot.implementation p type = .ok (some (id, args)) →
    ∃ d, p.methodDef? id = some d ∧ r.methodIndex? (d.signature p args) = some index

namespace Bound

variable {seen seen' : String × TypeRef → Prop}

theorem of_unbound (hslot : slot.implementors = []) (hseen : ∀ e, ¬seen e) : Bound p r seen slot where
  once := by simp [hslot]
  classes key := by simp [hslot, hseen]
  methods key index type id args hmem := by simp [hslot] at hmem

theorem mono (h : Bound p r seen slot) (hnames : r.names <+: r'.names)
    (hseen : ∀ e, seen' e ↔ seen e) : Bound p r' seen' slot := by
  obtain rfl : seen' = seen := funext fun e => propext (hseen e)
  refine ⟨h.once, h.classes, fun key index type id args hmem hclass himpl => ?_⟩
  obtain ⟨d, hd, hindex⟩ := h.methods key index type id args hmem hclass himpl
  refine ⟨d, hd, findIdx?_of_alike (fun i m hm => ?_) hindex⟩
  have hm' : r.names[i]? = some (identity m) := by rw [getElem?_names, hm]; rfl
  obtain ⟨hlt, hget⟩ := List.getElem?_eq_some_iff.1 hm'
  have hi := List.prefix_iff_getElem?.1 hnames i hlt
  rw [hget, getElem?_names, Option.map_eq_some_iff] at hi
  obtain ⟨m', hm', heq⟩ := hi
  simp only [identity, Prod.mk.injEq] at heq
  exact ⟨m', hm', by rw [heq.1]⟩

theorem skip (h : Bound p r seen slot) (himpl : slot.implementation p e.2 = .ok none) :
    Bound p r (fun e' => seen e' ∨ e' = e) slot := by
  have old : ∀ {key type found}, (seen (key, type) ∨ (key, type) = e) →
      slot.implementation p type = .ok (some found) → seen (key, type) := by
    rintro key type found (hseen | rfl) hfound
    · exact hseen
    · rw [himpl] at hfound
      cases hfound
  refine ⟨h.once, fun key => ?_, fun key index type id args hmem hseen himpl' =>
    h.methods key index type id args hmem (old hseen himpl') himpl'⟩
  rw [h.classes]
  constructor
  · rintro ⟨type, found, hseen, hfound⟩
    exact ⟨type, found, .inl hseen, hfound⟩
  · rintro ⟨type, found, hseen, hfound⟩
    exact ⟨type, found, old hseen hfound, hfound⟩

theorem add (h : Bound p r seen slot) {id : MethodId} {args : List TypeRef} {d : MethodDef}
    {index : Nat} (hnew : ∀ type', ¬seen (key, type'))
    (himpl : slot.implementation p type = .ok (some (id, args))) (hd : p.methodDef? id = some d)
    (hindex : r.methodIndex? (d.signature p args) = some index) :
    Bound p r (fun e => seen e ∨ e = (key, type)) (bindTo (key, index) slot) := by
  have hkey : key ∉ slot.implementors.map (·.1) := by
    rw [h.classes]
    rintro ⟨type', found, hseen, -⟩
    exact hnew type' hseen
  refine ⟨?_, fun key' => ?_, fun key' index' type' id' args' hmem hseen himpl' => ?_⟩
  · rw [bindTo, map_append]
    refine nodup_append.2 ⟨h.once, by simp, fun a ha b hb => ?_⟩
    rintro rfl
    obtain rfl : a = key := by simpa using hb
    exact hkey ha
  · rw [bindTo, map_append, mem_append, h.classes]
    constructor
    · rintro (⟨type', found, hseen, hfound⟩ | hlast)
      · exact ⟨type', found, .inl hseen, hfound⟩
      · obtain rfl : key' = key := by simpa using hlast
        exact ⟨type, (id, args), .inr rfl, himpl⟩
    · rintro ⟨type', found, hseen | heq, hfound⟩
      · exact .inl ⟨type', found, hseen, hfound⟩
      · cases heq
        exact .inr (by simp)
  · rcases mem_append.1 hmem with hold | hlast
    · refine h.methods key' index' type' id' args' hold (hseen.resolve_right fun heq => ?_) himpl'
      cases heq
      exact hkey (mem_map.2 ⟨_, hold, rfl⟩)
    · obtain ⟨rfl, rfl⟩ : key' = key ∧ index' = index := by simpa using hlast
      rcases hseen with hseen | heq
      · exact absurd hseen (hnew type')
      · cases heq
        have heq : some (id, args) = some (id', args') := Except.ok.inj (himpl.symm.trans himpl')
        cases heq
        exact ⟨d, hd, hindex⟩

end Bound

/-- The classes that were looked at with a slot. -/
def seenWith (r : Registry) (done : List (Nat × Nat)) (slotIndex : Nat) (e : String × TypeRef) : Prop :=
  ∃ k, (slotIndex, k) ∈ done ∧ r.classes[k]? = some e

/-- The registry while slots are bound: every slot is bound to what it was looked at with. -/
structure Binding (p : Program) (done : List (Nat × Nat)) (r : Registry) : Prop where
  named : Named p r
  distinct : (r.classes.toList.map (·.1)).Nodup
  known : ∀ s k, (s, k) ∈ done → s < r.slots.size ∧ k < r.classes.size
  bound : ∀ (s : Nat) slot, r.slots[s]? = some slot → Bound p r (r.seenWith done s) slot

namespace Binding

theorem of_discovers (hnamed : Named p r) (h : Discovers {} r) : Binding p [] r where
  named := hnamed
  distinct := h.distinct (by simp)
  known := by simp
  bound s slot hslot := by
    refine Bound.of_unbound ?_ (by simp [seenWith])
    rcases h.getElem?_slots hslot with hold | ⟨-, hempty⟩
    · simp at hold
    · exact hempty

theorem discovers (h : Binding c.program done r) (hd : Discovers r r')
    (hi : Identifies c.program r r') : Binding c.program done r' where
  named := hi.named h.named
  distinct := hd.distinct h.distinct
  known s k hmem := by
    have hold := h.known s k hmem
    have hsize := hd.size_le
    omega
  bound s slot hslot := by
    have hseen : ∀ e, r'.seenWith done s e ↔ r.seenWith done s e := by
      intro e
      refine exists_congr fun k => and_congr_right fun hmem => ?_
      rw [hd.getElem?_classes (h.known s k hmem).2]
    rcases hd.getElem?_slots hslot with hold | ⟨hnew, hempty⟩
    · exact (h.bound s slot hold).mono hi.names hseen
    · refine Bound.of_unbound hempty fun e => ?_
      rintro ⟨k, hmem, -⟩
      have := (h.known s k hmem).1
      omega

theorem index_unique (h : Binding p done r) {k' : Nat} {type' : TypeRef}
    (hk : r.classes[k]? = some (key, type)) (hk' : r.classes[k']? = some (key, type')) :
    k = k' := by
  have hget : (r.classes.toList.map (·.1))[k]? = some key := by simp [hk]
  have hget' : (r.classes.toList.map (·.1))[k']? = some key := by simp [hk']
  obtain ⟨hlt, -⟩ := List.getElem?_eq_some_iff.1 hget
  exact (List.getElem?_inj hlt h.distinct).1 (hget.trans hget'.symm)

theorem seenWith_snoc (done : List (Nat × Nat)) (s s' : Nat) (hk : r.classes[k]? = some e)
    (e' : String × TypeRef) : r.seenWith (done ++ [(s, k)]) s' e' ↔
      r.seenWith done s' e' ∨ s' = s ∧ e' = e := by
  simp only [seenWith, mem_append, mem_singleton, Prod.mk.injEq]
  constructor
  · rintro ⟨k', hmem | ⟨rfl, rfl⟩, hk'⟩
    · exact .inl ⟨k', hmem, hk'⟩
    · exact .inr ⟨rfl, Option.some.inj (hk'.symm.trans hk)⟩
  · rintro (⟨k', hmem, hk'⟩ | ⟨rfl, rfl⟩)
    · exact ⟨k', .inl hmem, hk'⟩
    · exact ⟨k, .inr ⟨rfl, rfl⟩, hk⟩

/-- The slot of the pair was changed, if at all, and it is bound to the class where it has to be. -/
theorem snoc (h : Binding c.program done r) {s : Nat} {f : VirtualSlot → VirtualSlot}
    (hs : r.slots[s]? = some slot) (hk : r.classes[k]? = some e)
    (hnamed : Named c.program { r with slots := r.slots.modify s f })
    (hbound : Bound c.program r (fun e' => r.seenWith done s e' ∨ e' = e) (f slot)) :
    Binding c.program (done ++ [(s, k)]) { r with slots := r.slots.modify s f } where
  named := hnamed
  distinct := h.distinct
  known s' k' hmem := by
    rw [mem_append, mem_singleton] at hmem
    rw [Array.size_modify]
    rcases hmem with hmem | ⟨rfl, rfl⟩
    · exact h.known s' k' hmem
    · exact ⟨(Array.getElem?_eq_some_iff.1 hs).1, (Array.getElem?_eq_some_iff.1 hk).1⟩
  bound s' slot'' hslot := by
    have hseen := seenWith_snoc done s s' hk
    rw [Array.getElem?_modify] at hslot
    split at hslot
    · rename_i heq
      subst heq
      rw [hs, Option.map_some, Option.some.injEq] at hslot
      subst hslot
      exact hbound.mono prefix_rfl fun e' => (hseen e').trans (by simp)
    · rename_i hne
      exact (h.bound s' slot'' hslot).mono prefix_rfl fun e' =>
        (hseen e').trans (or_iff_left fun heq => hne heq.1.symm)

end Binding

theorem bind_ok {s : Nat} (hs : r.slots[s]? = some slot) (hk : r.classes[k]? = some (key, type))
    (h : bind c s k r = .ok u r') :
    slot.implementation c.program type = .ok none ∧ r' = r ∨
      ∃ id args, slot.implementation c.program type = .ok (some (id, args)) ∧
        (key ∈ slot.implementors.map (·.1) ∧ r' = r ∨
          key ∉ slot.implementors.map (·.1) ∧ ∃ index r₁,
            compileMethod c id args r = .ok index r₁ ∧
            r' = bindClass s (key, index) r₁) := by
  have hany : slot.implementors.any (·.1 == key) = true ↔ key ∈ slot.implementors.map (·.1) := by
    simp
  unfold Registry.bind at h
  rw [state_get_bind] at h
  rw [state_get_bind] at h
  simp only [hs, hk] at h
  obtain ⟨found, himpl, h⟩ := state_ofExcept_bind_ok.1 h
  cases found with
  | none => exact .inl ⟨himpl, (state_pure_ok.1 h).2.symm⟩
  | some found =>
    obtain ⟨id, args⟩ := found
    refine .inr ⟨id, args, himpl, ?_⟩
    dsimp only at h
    split at h
    · rename_i hbound
      exact .inl ⟨hany.1 hbound, (state_pure_ok.1 h).2.symm⟩
    · rename_i hnew
      obtain ⟨index, r₁, hcompile, h⟩ := state_bind_ok.1 h
      exact .inr ⟨fun hmem => hnew (hany.2 hmem), index, r₁, hcompile, (state_modify_ok.1 h).symm⟩

theorem Named.methodIndex?_eq (h : Named p r) {m : CompiledMethod} (hm : r.methods[i]? = some m) :
    r.methodIndex? m.name = some i := by
  have entry : ∀ {j : Nat} {m' : CompiledMethod}, r.methods[j]? = some m' →
      (r.names.map (·.1))[j]? = some m'.name := by
    intro j m' hm'
    rw [getElem?_map, getElem?_names, hm']
    rfl
  cases hfound : r.methodIndex? m.name with
  | none => exact absurd (mem_of_getElem? (entry hm)) (methodIndex?_none.1 hfound)
  | some j =>
    obtain ⟨m', hm', hname⟩ := methodIndex?_some hfound
    obtain ⟨hlt, -⟩ := List.getElem?_eq_some_iff.1 (entry hm)
    rw [(List.getElem?_inj hlt h.names_nodup).1 ((entry hm).trans (hname ▸ entry hm').symm)]

/-- **Looking at a pair** binds the class to the slot where it implements it. Its key is not bound to
the slot yet, since the pair was not looked at. -/
theorem Binding.bind {s : Nat} (h : Binding c.program done r) (hs : s < r.slots.size)
    (hk : k < r.classes.size) (hnew : (s, k) ∉ done) (hbind : Registry.bind c s k r = .ok u r') :
    Binding c.program (done ++ [(s, k)]) r' := by
  have hslot := Array.getElem?_eq_getElem hs
  have hclass := Array.getElem?_eq_getElem hk
  generalize r.slots[s] = slot at hslot
  generalize r.classes[k] = e at hclass
  obtain ⟨key, type⟩ := e
  have unchanged : { r with slots := r.slots.modify s id } = r := by rw [modify_id]
  have hunseen : ∀ type', ¬r.seenWith done s (key, type') := by
    rintro type' ⟨k', hmem, hk'⟩
    rw [h.index_unique hk' hclass] at hmem
    exact hnew hmem
  have hbound := h.bound s slot hslot
  rcases bind_ok hslot hclass hbind with ⟨himpl, rfl⟩ | ⟨id, args, himpl, ⟨hmem, -⟩ |
    ⟨-, index, r₁, hcompile, rfl⟩⟩
  · have hsnoc := h.snoc hslot hclass (by rw [unchanged]; exact h.named) (hbound.skip himpl)
    rw [unchanged] at hsnoc
    exact hsnoc
  · obtain ⟨type', found, hseen, -⟩ := (hbound.classes key).1 hmem
    exact absurd hseen (hunseen type')
  · have hidentifies := (identifies_compileWithin c _ id args).ok hcompile
    have hdiscovers := (discovers_compileWithin c _ id args).ok hcompile
    have h₁ := h.discovers hdiscovers hidentifies
    obtain ⟨new, hslots, -⟩ := hdiscovers.slots
    have hslot₁ : r₁.slots[s]? = some slot := by
      rw [← Array.getElem?_toList, hslots, getElem?_append_left (by simpa using hs),
        Array.getElem?_toList, hslot]
    have hclass₁ : r₁.classes[k]? = some (key, type) :=
      (hdiscovers.getElem?_classes hk).trans hclass
    have hnamed := (sameNames_bindClass s (key, index) r₁).identifies.named h₁.named
    obtain ⟨d, m, hd, hm, hname, -⟩ := compileWithin_entry hcompile
    have hindex := hname ▸ h₁.named.methodIndex?_eq hm
    refine h₁.snoc hslot₁ hclass₁ hnamed ((h₁.bound s slot hslot₁).add (fun type' => ?_) himpl hd hindex)
    rintro ⟨k', hmem, hk'⟩
    rw [h₁.index_unique hk' hclass₁] at hmem
    exact hnew hmem

/-! ## Binding all slots -/

/-- The pairs are looked at one after the other. -/
inductive Binds (c : BuildContext) : Registry → List (Nat × Nat) → Registry → Prop
  | nil (r : Registry) : Binds c r [] r
  | cons {r r₁ r' : Registry} {s k : Nat} {pairs : List (Nat × Nat)}
    (first : bind c s k r = .ok () r₁) (rest : Binds c r₁ pairs r') : Binds c r ((s, k) :: pairs) r'

theorem extends_bind (c : BuildContext) (s k : Nat) : Keeps Extends (bind c s k) :=
  AdmitsBinding.bindPair {
    closed := growth_extends.closed_keeps
    compile := keeps_compileMethod c
    discover := fun t => Growth.modify (extends_discoverClass c.program t)
    bind := fun index implementor => Growth.modify (extends_bindClass index implementor) } s k

theorem bindPairs_done (h : (q.extend r.slots.size r.classes.size).pairs = []) :
    bindPairs c bound q r = .ok bound r := by
  cases bound with
  | zero | succ n =>
    rw [bindPairs, state_get_bind]
    simp only [h]
    rfl

theorem bindPairs_cutOff {rest : List (Nat × Nat)}
    (h : (q.extend r.slots.size r.classes.size).pairs = pair :: rest) :
    bindPairs c 0 q r = .error (.limitExceeded "link iterations" c.options.maxLinkIterations) r := by
  rw [bindPairs, state_get_bind]
  simp only [h]
  rfl

theorem bindPairs_succ {rest : List (Nat × Nat)} {s n : Nat}
    (h : (q.extend r.slots.size r.classes.size).pairs = (s, k) :: rest) :
    bindPairs c (n + 1) q r = (bind c s k >>= fun _ =>
      bindPairs c n { q.extend r.slots.size r.classes.size with pairs := rest }) r := by
  rw [bindPairs, state_get_bind]
  simp only [h]

/-- What holds while the queue is worked through still holds when its first pair has been looked at. -/
theorem bind_next {rest : List (Nat × Nat)} {r₁ : Registry} {s : Nat}
    (hbinding : Binding c.program done r) (hcovers : Covers (done ++ q.pairs) q.slots q.classes)
    (hslots : q.slots ≤ r.slots.size) (hclasses : q.classes ≤ r.classes.size)
    (hpairs : (q.extend r.slots.size r.classes.size).pairs = (s, k) :: rest)
    (hbind : bind c s k r = .ok u r₁) :
    let q' := { q.extend r.slots.size r.classes.size with pairs := rest }
    Binding c.program (done ++ [(s, k)]) r₁ ∧ Covers (done ++ [(s, k)] ++ q'.pairs) q'.slots q'.classes ∧
      q'.slots ≤ r₁.slots.size ∧ q'.classes ≤ r₁.classes.size := by
  have hextended := BindQueue.covers_extend hcovers hslots hclasses
  rw [hpairs] at hextended
  obtain ⟨hs, hk⟩ : s < r.slots.size ∧ k < r.classes.size := hextended.mem.1 (by simp)
  have hnew : (s, k) ∉ done := fun hmem =>
    (nodup_append.1 hextended.nodup).2.2 _ hmem _ mem_cons_self rfl
  -- what is known to the queue stays known while the pair is looked at
  have hextends := (extends_bind c s k).ok hbind
  have hslots₁ := hextends.slots.length_le
  have hclasses₁ := hextends.classes.length_le
  simp only [length_map, Array.length_toList] at hslots₁ hclasses₁
  obtain ⟨hqs, hqk⟩ := q.size_extend r.slots.size r.classes.size
  refine ⟨hbinding.bind hs hk hnew hbind, ?_, ?_, ?_⟩
  · rw [append_assoc, hqs, hqk]
    exact hextended
  · rwa [hqs]
  · rwa [hqk]

/-- **The queue is worked through** until all pairs of the slots and the classes that there are then
have been looked at, each once. -/
theorem bindPairs_ok (hbinding : Binding c.program done r)
    (hcovers : Covers (done ++ q.pairs) q.slots q.classes) (hslots : q.slots ≤ r.slots.size)
    (hclasses : q.classes ≤ r.classes.size) (h : bindPairs c bound q r = .ok remaining r') :
    ∃ pairs, Binds c r pairs r' ∧ remaining + pairs.length = bound ∧
      Binding c.program (done ++ pairs) r' ∧ Covers (done ++ pairs) r'.slots.size r'.classes.size := by
  induction bound generalizing q done r with
  | zero =>
    have hextended := BindQueue.covers_extend hcovers hslots hclasses
    cases hpairs : (q.extend r.slots.size r.classes.size).pairs with
    | nil =>
      rw [bindPairs_done hpairs] at h
      cases h
      rw [hpairs] at hextended
      exact ⟨[], .nil r', rfl, by rwa [append_nil], hextended⟩
    | cons =>
      rw [bindPairs_cutOff hpairs] at h
      cases h
  | succ n ih =>
    have hextended := BindQueue.covers_extend hcovers hslots hclasses
    cases hpairs : (q.extend r.slots.size r.classes.size).pairs with
    | nil =>
      rw [bindPairs_done hpairs] at h
      cases h
      rw [hpairs] at hextended
      exact ⟨[], .nil r', rfl, by rwa [append_nil], hextended⟩
    | cons pair rest =>
      obtain ⟨s, k⟩ := pair
      rw [bindPairs_succ hpairs] at h
      obtain ⟨_, r₁, hbind, h⟩ := state_bind_ok.1 h
      obtain ⟨hbinding₁, hcovers₁, hslots₁, hclasses₁⟩ :=
        bind_next hbinding hcovers hslots hclasses hpairs hbind
      obtain ⟨pairs, hbinds, hcount, hbinding', hcovers'⟩ := ih hbinding₁ hcovers₁ hslots₁ hclasses₁ h
      refine ⟨(s, k) :: pairs, .cons hbind hbinds, ?_, ?_, ?_⟩
      · rw [length_cons]
        omega
      · rw [append_cons]
        exact hbinding'
      · rw [append_cons]
        exact hcovers'

theorem BindQueue.covers_empty : Covers ([] ++ ({} : BindQueue).pairs) 0 0 :=
  covers_of nodup_nil (by simp)

/-- **All slots are bound** once every pair of a slot and a class has been looked at. -/
theorem bindSlots_ok {iterations : Nat} (hbinding : Binding c.program [] r)
    (h : bindSlots c r = .ok iterations r') :
    ∃ pairs, Binds c r pairs r' ∧ pairs.length = iterations ∧ Binding c.program pairs r' ∧
      Covers pairs r'.slots.size r'.classes.size ∧ ∀ slot ∈ r'.slots, slot.implementors ≠ [] := by
  obtain ⟨remaining, r₁, hpairs, h⟩ := state_bind_ok.1 h
  rw [state_get_bind] at h
  cases hfind : r₁.slots.find? (·.implementors.isEmpty) with
  | none =>
    simp only [hfind] at h
    obtain ⟨rfl, rfl⟩ := state_pure_ok.1 h
    obtain ⟨pairs, hbinds, hcount, hbound, hcovers⟩ :=
      bindPairs_ok hbinding BindQueue.covers_empty (Nat.zero_le _) (Nat.zero_le _) hpairs
    refine ⟨pairs, hbinds, by omega, hbound, hcovers, fun slot hslot hempty => ?_⟩
    have hnone := Array.find?_eq_none.1 hfind slot hslot
    exact hnone (by rw [hempty]; rfl)
  | some slot =>
    simp only [hfind] at h
    obtain ⟨_, r₂, -, h⟩ := state_bind_ok.1 h
    exact absurd h (by simp)

/-! ## The link -/

theorem applyFixups_slots {t t' : TypeTables} {fixups : List Fixup}
    (h : fixups.foldlM (applyFixup p) t r = .ok t' r') :
    r'.slots = r.slots ∧ r'.classes = r.classes := by
  refine state_foldlM_ok (P := fun _ _ s => s.slots = r.slots ∧ s.classes = r.classes) ?_ ⟨rfl, rfl⟩ h
  intro done t₁ f s t₂ s' hs hstep
  obtain ⟨w, -, -, rfl⟩ := applyFixup_ok hstep
  exact hs

theorem discovers_compileEntry (c : BuildContext) (start : MethodRef) :
    Keeps Discovers (compileEntry c start) := by
  have g := growth_discovers
  refine g.bind (g.ofExcept _) fun resolved => ?_
  split
  · exact discovers_compileWithin c _ _ _
  · exact g.bind (Growth.modify (discovers_discoverClass c.program _)) fun _ =>
      discovers_compileWithin c _ _ _

theorem binding_of_compileEntry {c : BuildContext} {start : MethodRef} {index : Nat} {r : Registry}
    (h : compileEntry c start {} = .ok index r) : Binding c.program [] r :=
  .of_discovers (((admitsBinding_identifies c).compileEntry start |>.ok h).named (Named.empty _))
    ((discovers_compileEntry c start).ok h)

/-- **Dispatch is complete and exact.** A build that links looks at every pair of a slot and a class
just once, whatever slots and classes come up on the way; in the end every slot is bound to just the
classes that implement it, to each once and to its method, and there is at least one. -/
theorem dispatch_complete {c : BuildContext} {start : MethodRef} {index : Nat} {r r' : Registry}
    {linked : Linked} (hentry : compileEntry c start {} = .ok index r)
    (hlink : link c r = .ok linked r') :
    linked.iterations = r'.slots.size * r'.classes.size ∧
      (∃ pairs r₁, Binds c r pairs r₁ ∧ Covers pairs r'.slots.size r'.classes.size ∧
        r₁.slots = r'.slots ∧ r₁.classes = r'.classes ∧ pairs.length = linked.iterations) ∧
      ∀ slot ∈ r'.slots, Bound c.program r' (· ∈ r'.classes) slot ∧ slot.implementors ≠ [] := by
  obtain ⟨r₁, s, t, hbind, -, -, hfold, -⟩ := link_ok hlink
  obtain ⟨pairs, hbinds, hiterations, hbound, hcovers, hsome⟩ :=
    bindSlots_ok (binding_of_compileEntry hentry) hbind
  -- what follows leaves the slots, the classes and the signatures as they are
  obtain ⟨methods, hblock⟩ := (blocks_blockCallers r₁).rest
  have hblocked : SameNames r₁ r₁.blockCallers :=
    growth_blockCallersWithin growth_sameNames sameNames_block _ r₁
  have hpatched := (growth_sameNames.foldlM (sameNames_applyFixup c.program) _ _).ok hfold
  have hnames : r'.names = r₁.names := hpatched.names.trans hblocked.names
  obtain ⟨hslots, hclasses⟩ := applyFixups_slots hfold
  have hslots : r₁.slots = r'.slots := by rw [hslots, hblock]
  have hclasses : r₁.classes = r'.classes := by rw [hclasses, hblock]
  rw [hslots] at hcovers hsome
  rw [hclasses] at hcovers
  refine ⟨hiterations.symm.trans hcovers.length,
    ⟨pairs, r₁, hbinds, hcovers, hslots, hclasses, hiterations⟩, fun slot hslot => ⟨?_, hsome slot hslot⟩⟩
  obtain ⟨s, hs⟩ := Array.mem_iff_getElem?.1 hslot
  have hslot' := hbound.bound s slot (hslots ▸ hs)
  refine hslot'.mono (hnames ▸ prefix_rfl) fun e => ?_
  -- every class was looked at with the slot
  rw [Array.mem_iff_getElem?]
  refine exists_congr fun k => ?_
  rw [hclasses]
  constructor
  · intro hk
    exact ⟨hcovers.mem.2 ⟨(Array.getElem?_eq_some_iff.1 hs).1, (Array.getElem?_eq_some_iff.1 hk).1⟩, hk⟩
  · exact fun hk => hk.2

/-- The area of a square makes a circle, and asks for its area and for its width. -/
def figures : BuildContext where
  program := {
    types := #[
      { name := "Figure", kind := .interfaceType, methods := [⟨0⟩, ⟨1⟩] },
      { name := "Circle", interfaces := [.named ⟨0⟩ []], methods := [⟨2⟩, ⟨3⟩, ⟨4⟩] },
      { name := "Square", base := some (.named ⟨1⟩ []), methods := [⟨5⟩, ⟨6⟩] },
      { name := "P", methods := [⟨7⟩] }]
    methods := #[
      { name := "Area", declaring := ⟨0⟩, ret := .primitive .i32, isAbstract := true
        isVirtual := true },
      { name := "Width", declaring := ⟨0⟩, ret := .primitive .i32, isAbstract := true
        isVirtual := true },
      { name := ".ctor", declaring := ⟨1⟩, body := some { code := #[{ op := .ret }] } },
      { name := "Area", declaring := ⟨1⟩, ret := .primitive .i32, isVirtual := true
        body := some { code := #[{ op := .const (.i4 3) }, { op := .ret }] } },
      { name := "Width", declaring := ⟨1⟩, ret := .primitive .i32, isVirtual := true
        body := some { code := #[{ op := .const (.i4 2) }, { op := .ret }] } },
      { name := ".ctor", declaring := ⟨2⟩, body := some { code := #[{ op := .ret }] } },
      { name := "Area", declaring := ⟨2⟩, ret := .primitive .i32, isVirtual := true
        body := some { code := #[{ op := .newObject ⟨.named ⟨1⟩ [], ".ctor", [], .void, true⟩ },
          { op := .dup },
          { op := .call true ⟨.named ⟨0⟩ [], "Area", [], .primitive .i32, true⟩ }, { op := .pop },
          { op := .call true ⟨.named ⟨0⟩ [], "Width", [], .primitive .i32, true⟩ },
          { op := .ret }] } },
      { name := "Main", declaring := ⟨3⟩, ret := .primitive .i32, isStatic := true
        body := some { code := #[{ op := .newObject ⟨.named ⟨2⟩ [], ".ctor", [], .void, true⟩ },
          { op := .call true ⟨.named ⟨0⟩ [], "Area", [], .primitive .i32, true⟩ },
          { op := .ret }] } }] }

def figuresEntry : MethodRef := ⟨.named ⟨3⟩ [], "Main", [], .primitive .i32, false⟩

/-- The registry before and after the link. -/
def figuresCompiled : Registry := stateAfter (compileEntry figures figuresEntry) {}

def figuresLinked : Registry := stateAfter (link figures) figuresCompiled

/-- The link finds a class and a slot that the entry does not reach. -/
theorem figures_dispatch_complete :
    figuresCompiled.slots.size = 1 ∧ figuresCompiled.classes.size = 1 ∧
      ∃ index linked, compileEntry figures figuresEntry {} = .ok index figuresCompiled ∧
        link figures figuresCompiled = .ok linked figuresLinked ∧ linked.iterations = 4 ∧
        linked.iterations = figuresLinked.slots.size * figuresLinked.classes.size ∧
        (∃ pairs r₁, Binds figures figuresCompiled pairs r₁ ∧
          Covers pairs figuresLinked.slots.size figuresLinked.classes.size ∧
          r₁.slots = figuresLinked.slots ∧ r₁.classes = figuresLinked.classes ∧
          pairs.length = linked.iterations) ∧
        ∀ slot ∈ figuresLinked.slots,
          Bound figures.program figuresLinked (· ∈ figuresLinked.classes) slot ∧
            slot.implementors ≠ [] := by
  have hentry : ((compileEntry figures figuresEntry).run' {}).any (fun _ => true) = true := by
    decide +kernel
  have hlink : (((link figures).run' figuresCompiled).any (·.iterations == 4)) = true := by
    decide +kernel
  obtain ⟨index, hindex, -⟩ := ok_of_any hentry
  obtain ⟨linked, hlinked, hiterations⟩ := ok_of_any hlink
  exact ⟨by decide +kernel, by decide +kernel, index, linked, hindex, hlinked, eq_of_beq hiterations,
    dispatch_complete hindex hlinked⟩

end Registry

end DeviceCode
