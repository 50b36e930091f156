import DeviceCode.Build
import DeviceCode.Proofs.Registry.Dispatch
import Mathlib.Data.Set.Card
import Mathlib.Logic.Relation

/-!
# Which types are subtypes

`Program.Derives`: a type comes to another through bases and interfaces. The search for a supertype
keeps no account of the types that it has been to: it goes through the walks up the hierarchy one after
the other, in the order of the positions at which they turn off (`Program.walk`), and gives up after 257
of them. Main statement: `isSubtype_exact`, a type passes for a subtype exactly if some walk to the
target is among the first 257, and what follows from that for the classes that a virtual slot is bound
to. `braid_left_out`: a class that is kept from its slot by interfaces that share their parents.
-/

namespace DeviceCode

open List

variable {p : Program} {n k : Nat} {v v' : List Nat} {starts : List TypeId} {slot : VirtualSlot}

namespace Program

/-! ## Walks -/

/-- The type extends or implements the other, as its definition says. -/
def HasParent (p : Program) (id parent : TypeId) : Prop :=
  ∃ d args, p.typeDef? id = some d ∧ TypeRef.named parent args ∈ d.base.toList ++ d.interfaces

/-- The type is the other, or comes to it through bases and interfaces. -/
abbrev Derives (p : Program) : TypeId → TypeId → Prop := Relation.ReflTransGen p.HasParent

theorem mem_parents {id parent : TypeId} : parent ∈ p.parents id ↔ p.HasParent id parent := by
  unfold parents HasParent
  cases hd : p.typeDef? id with
  | none => simp
  | some d =>
    simp only [mem_reverse, mem_filterMap, Option.some.injEq]
    constructor
    · rintro ⟨t, ht, hparent⟩
      split at hparent
      · rename_i args
        cases hparent
        exact ⟨d, args, rfl, ht⟩
      · cases hparent
    · rintro ⟨_, args, rfl, ht⟩
      exact ⟨_, ht, rfl⟩

/-- Where a walk ends. From each type it goes on to the parent at a position. -/
def walk (p : Program) : TypeId → List Nat → Option TypeId
  | id, [] => some id
  | id, k :: ks => (p.parents id)[k]?.bind fun parent => p.walk parent ks

/-- Where a walk ends that starts at the type at a position of the list. -/
def walkFrom (p : Program) (starts : List TypeId) : List Nat → Option TypeId
  | [] => none
  | k :: ks => starts[k]?.bind fun id => p.walk id ks

theorem derives_iff_walk {id target : TypeId} :
    p.Derives id target ↔ ∃ w, p.walk id w = some target := by
  constructor
  · intro h
    induction h using Relation.ReflTransGen.head_induction_on with
    | refl => exact ⟨[], rfl⟩
    | head hparent _ ih =>
      obtain ⟨w, hw⟩ := ih
      obtain ⟨k, hk⟩ := mem_iff_getElem?.1 (mem_parents.2 hparent)
      exact ⟨k :: w, by rw [walk, hk, Option.bind_some, hw]⟩
  · rintro ⟨w, hw⟩
    induction w generalizing id with
    | nil =>
      cases hw
      exact .refl
    | cons k ks ih =>
      obtain ⟨parent, hk, hw⟩ := Option.bind_eq_some_iff.1 hw
      exact .head (mem_parents.1 (mem_of_getElem? hk)) (ih hw)

/-- The walks from the types of the list that come before one. -/
def earlierFrom (p : Program) (starts : List TypeId) (w : List Nat) : Set (List Nat) :=
  {u | u < w ∧ (p.walkFrom starts u).isSome}

/-! ## One step of the search -/

/-- The walk as it was before the first of the types to start from, which had `n` parents, gave way to
its parents. -/
def unshift (n : Nat) : List Nat → List Nat
  | [] => []
  | k :: ks => if k < n then 0 :: k :: ks else (k - n + 1) :: ks

theorem unshift_of_lt (ks : List Nat) (hk : k < n) :
    unshift n (k :: ks) = 0 :: k :: ks := if_pos hk

theorem unshift_of_le (ks : List Nat) (hk : n ≤ k) :
    unshift n (k :: ks) = (k - n + 1) :: ks := if_neg (Nat.not_lt.2 hk)

theorem unshift_lt_iff (hv : v ≠ []) (hv' : v' ≠ []) : unshift n v < unshift n v' ↔ v < v' := by
  obtain ⟨k, ks, rfl⟩ := exists_cons_of_ne_nil hv
  obtain ⟨k', ks', rfl⟩ := exists_cons_of_ne_nil hv'
  rcases Nat.lt_or_ge k n with hk | hk <;> rcases Nat.lt_or_ge k' n with hk' | hk'
  · rw [unshift_of_lt ks hk, unshift_of_lt ks' hk']
    simp
  · rw [unshift_of_lt ks hk, unshift_of_le ks' hk', cons_lt_cons_iff, cons_lt_cons_iff]
    exact iff_of_true (.inl (by omega)) (.inl (by omega))
  · rw [unshift_of_le ks hk, unshift_of_lt ks' hk', cons_lt_cons_iff, cons_lt_cons_iff]
    exact iff_of_false (by omega) (by omega)
  · rw [unshift_of_le ks hk, unshift_of_le ks' hk', cons_lt_cons_iff, cons_lt_cons_iff]
    exact or_congr (by omega) (and_congr_left fun _ => by omega)

theorem first_lt_unshift (hv : v ≠ []) : [0] < unshift n v := by
  obtain ⟨k, ks, rfl⟩ := exists_cons_of_ne_nil hv
  rcases Nat.lt_or_ge k n with hk | hk
  · rw [unshift_of_lt ks hk]
    simp
  · rw [unshift_of_le ks hk, cons_lt_cons_iff]
    exact .inl (Nat.succ_pos _)

theorem unshift_inj (hv : v ≠ []) (hv' : v' ≠ []) (h : unshift n v = unshift n v') : v = v' := by
  rcases lt_trichotomy v v' with hlt | heq | hlt
  · exact absurd ((unshift_lt_iff hv hv').2 hlt) (by rw [h]; exact lt_irrefl _)
  · exact heq
  · exact absurd ((unshift_lt_iff hv' hv).2 hlt) (by rw [h]; exact lt_irrefl _)

section
variable {id target : TypeId} {rest : List TypeId} {w : List Nat}

theorem walkFrom_ne_nil (h : (p.walkFrom starts w).isSome) : w ≠ [] := by
  rintro rfl
  cases h

theorem walkFrom_unshift : p.walkFrom (id :: rest) (unshift (p.parents id).length v) =
    p.walkFrom (p.parents id ++ rest) v := by
  cases v with
  | nil => rfl
  | cons k ks =>
    rcases Nat.lt_or_ge k (p.parents id).length with hk | hk
    · rw [unshift_of_lt ks hk, walkFrom, getElem?_cons_zero, Option.bind_some, walk, walkFrom,
        getElem?_append_left hk]
    · rw [unshift_of_le ks hk, walkFrom, getElem?_cons_succ, walkFrom,
        getElem?_append_right hk]

/-- The first walk stays at the first type, and all others are walks from what takes its place. -/
theorem walkFrom_cases (h : (p.walkFrom (id :: rest) w).isSome) :
    w = [0] ∨ ∃ v, v ≠ [] ∧ w = unshift (p.parents id).length v := by
  match w with
  | [] => cases h
  | [0] => exact .inl rfl
  | 0 :: k :: ks =>
    rw [walkFrom, getElem?_cons_zero, Option.bind_some, walk] at h
    have hk : k < (p.parents id).length := by
      by_contra hk
      rw [getElem?_eq_none (by omega)] at h
      cases h
    exact .inr ⟨k :: ks, cons_ne_nil _ _, by rw [unshift, if_pos hk]⟩
  | (k + 1) :: ks =>
    refine .inr ⟨((p.parents id).length + k) :: ks, cons_ne_nil _ _, ?_⟩
    rw [unshift, if_neg (by omega), Nat.add_sub_cancel_left]

theorem earlierFrom_first : p.earlierFrom (id :: rest) [0] = ∅ := by
  refine Set.eq_empty_of_forall_notMem fun u ⟨hlt, hsome⟩ => ?_
  match u with
  | [] => cases hsome
  | k :: ks =>
    rw [cons_lt_cons_iff] at hlt
    rcases hlt with hlt | ⟨-, hlt⟩
    · omega
    · exact absurd hlt (not_lt_nil ks)

/-- Before any other walk comes the first one, and then the walks that come before it afterwards. -/
theorem encard_earlierFrom (hv : v ≠ []) :
    (p.earlierFrom (id :: rest) (unshift (p.parents id).length v)).encard =
      (p.earlierFrom (p.parents id ++ rest) v).encard + 1 := by
  have hsplit : p.earlierFrom (id :: rest) (unshift (p.parents id).length v) =
      insert [0] (unshift (p.parents id).length '' p.earlierFrom (p.parents id ++ rest) v) := by
    ext u
    constructor
    · rintro ⟨hlt, hsome⟩
      rcases walkFrom_cases hsome with rfl | ⟨u, hu, rfl⟩
      · exact .inl rfl
      · rw [walkFrom_unshift] at hsome
        exact .inr ⟨u, ⟨(unshift_lt_iff hu hv).1 hlt, hsome⟩, rfl⟩
    · rintro (rfl | ⟨u, ⟨hlt, hsome⟩, rfl⟩)
      · exact ⟨first_lt_unshift hv, rfl⟩
      · exact ⟨(unshift_lt_iff (walkFrom_ne_nil hsome) hv).2 hlt, by rwa [walkFrom_unshift]⟩
  have hfirst : [0] ∉ unshift (p.parents id).length '' p.earlierFrom (p.parents id ++ rest) v := by
    rintro ⟨u, ⟨-, hsome⟩, heq⟩
    exact absurd heq.symm (ne_of_lt (first_lt_unshift (walkFrom_ne_nil hsome)))
  have hinj : Set.InjOn (unshift (p.parents id).length) (p.earlierFrom (p.parents id ++ rest) v) :=
    fun _ hu _ hu' => unshift_inj (walkFrom_ne_nil hu.2) (walkFrom_ne_nil hu'.2)
  rw [hsplit, Set.encard_insert_of_notMem hfirst, hinj.encard_image]

/-- A walk among the first ones goes nowhere, or it is among the first ones, less one, from what takes
the place of the first type. -/
theorem exists_walkFrom_cons {bound : ℕ∞} :
    (∃ w, p.walkFrom (id :: rest) w = some target ∧ (p.earlierFrom (id :: rest) w).encard ≤ bound) ↔
      id = target ∨ ∃ v, p.walkFrom (p.parents id ++ rest) v = some target ∧
        (p.earlierFrom (p.parents id ++ rest) v).encard + 1 ≤ bound := by
  constructor
  · rintro ⟨w, hw, hcard⟩
    rcases walkFrom_cases (by rw [hw]; rfl) with rfl | ⟨v, hv, rfl⟩
    · exact .inl (Option.some.inj hw)
    · rw [encard_earlierFrom hv] at hcard
      rw [walkFrom_unshift] at hw
      exact .inr ⟨v, hw, hcard⟩
  · rintro (rfl | ⟨v, hv, hcard⟩)
    · exact ⟨[0], rfl, by rw [earlierFrom_first, Set.encard_empty]; exact bot_le⟩
    · refine ⟨unshift (p.parents id).length v, by rw [walkFrom_unshift, hv], ?_⟩
      rwa [encard_earlierFrom (walkFrom_ne_nil (by rw [hv]; rfl))]

/-! ## The search -/

theorem walkFrom_nil (w : List Nat) : p.walkFrom [] w = none := by
  cases w <;> rfl

/-- **The search finds the target** exactly if some walk to it is among the first ones. -/
theorem reaches_iff : p.reaches target n starts = true ↔
    ∃ w, p.walkFrom starts w = some target ∧ (p.earlierFrom starts w).encard ≤ n := by
  induction n generalizing starts with
  | zero =>
    cases starts with
    | nil => simp [reaches, walkFrom_nil]
    | cons id rest =>
      rw [reaches, exists_walkFrom_cons]
      simp
  | succ n ih =>
    cases starts with
    | nil => simp [reaches, walkFrom_nil]
    | cons id rest =>
      rw [reaches, Bool.or_eq_true, beq_iff_eq, ih, exists_walkFrom_cons]
      simp

/-- The walks up the hierarchy from a type. -/
def walks (p : Program) (id : TypeId) : Set (List Nat) := {u | (p.walk id u).isSome}

/-- The walks from a type that come before one. -/
def earlier (p : Program) (id : TypeId) (w : List Nat) : Set (List Nat) := {u ∈ p.walks id | u < w}

theorem encard_earlierFrom_single : (p.earlierFrom [id] (0 :: w)).encard = (p.earlier id w).encard := by
  have himage : p.earlierFrom [id] (0 :: w) = (0 :: ·) '' p.earlier id w := by
    ext u
    constructor
    · rintro ⟨hlt, hsome⟩
      match u with
      | [] => cases hsome
      | (k + 1) :: ks => cases hsome
      | 0 :: ks => exact ⟨ks, ⟨hsome, by simpa using hlt⟩, rfl⟩
    · rintro ⟨u, ⟨hsome, hlt⟩, rfl⟩
      exact ⟨by simpa using hlt, hsome⟩
  rw [himage, (cons_injective).encard_image]

/-- **A type passes for a subtype** exactly if some walk to the target is among the first 257. -/
theorem isSubtype_iff : p.isSubtype id target = true ↔
    ∃ w, p.walk id w = some target ∧ (p.earlier id w).encard ≤ 256 := by
  rw [isSubtype, reaches_iff]
  constructor
  · rintro ⟨w, hw, hcard⟩
    match w with
    | [] => cases hw
    | (k + 1) :: ks => cases hw
    | 0 :: ks =>
      rw [encard_earlierFrom_single] at hcard
      exact ⟨ks, hw, hcard⟩
  · rintro ⟨w, hw, hcard⟩
    exact ⟨0 :: w, hw, by rw [encard_earlierFrom_single]; exact hcard⟩

theorem isSubtype_of_walks (hwalks : (p.walks id).encard ≤ 257) (h : p.Derives id target) :
    p.isSubtype id target = true := by
  obtain ⟨w, hw⟩ := derives_iff_walk.1 h
  refine isSubtype_iff.2 ⟨w, hw, ?_⟩
  have hmem : w ∈ p.walks id := by
    show (p.walk id w).isSome = true
    rw [hw]
    rfl
  have hsub : insert w (p.earlier id w) ⊆ p.walks id :=
    Set.insert_subset hmem fun _ hu => hu.1
  have hcard := (Set.encard_le_encard hsub).trans hwalks
  rw [Set.encard_insert_of_notMem fun hw => lt_irrefl w hw.2] at hcard
  exact (ENat.add_le_add_iff_right ENat.one_ne_top).1 hcard

end

end Program

/-! ## Dispatch -/

namespace VirtualSlot

/-- The type or one of its nearest 63 bases declares a method for the slot, whose owner has those
arguments. -/
def Offered (p : Program) (slot : VirtualSlot) (ownerArgs : List TypeRef) (type : TypeRef) : Prop :=
  ∃ m found, p.methodDef? slot.method = some m ∧ Pattern.search p
    { method := slot.method, name := m.name, params := m.params.map (·.substitute ownerArgs) } 64 type =
      some found

theorem implementation_some_iff {id owner : TypeId} {args ownerArgs : List TypeRef}
    (howner : slot.owner = .named owner ownerArgs) :
    (∃ found, slot.implementation p (.named id args) = .ok (some found)) ↔
      p.isConcrete id = true ∧ slot.Offered p ownerArgs (.named id args) ∧
        p.isSubtype id owner = true := by
  simp only [implementation, howner, Offered]
  by_cases hsub : p.isConcrete id = true ∧ p.isSubtype id owner = true
  · cases p.methodDef? slot.method <;> simp [hsub]
  · rw [if_neg (by rwa [Bool.and_eq_true])]
    constructor
    · rintro ⟨_, h⟩
      cases h
    · exact fun ⟨hconcrete, _, h⟩ => absurd ⟨hconcrete, h⟩ hsub

end VirtualSlot

namespace Registry

/-- Once all slots are bound, a slot is bound to a class of the build exactly if the class implements
it. -/
theorem implementor_iff {c : BuildContext} {start : MethodRef} {index iterations : Nat}
    {r r' : Registry} (hentry : compileEntry c start {} = .ok index r)
    (hbind : bindSlots c r = .ok iterations r') (hslot : slot ∈ r'.slots) {key : String}
    {type : TypeRef} (hclass : (key, type) ∈ r'.classes) :
    key ∈ slot.implementors.map (·.1) ↔
      ∃ found, slot.implementation c.program type = .ok (some found) := by
  obtain ⟨pairs, -, -, hbound, hcovers, -⟩ := bindSlots_ok (binding_of_compileEntry hentry) hbind
  obtain ⟨s, hs⟩ := Array.mem_iff_getElem?.1 hslot
  obtain ⟨k, hk⟩ := Array.mem_iff_getElem?.1 hclass
  rw [(hbound.bound s slot hs).classes key]
  constructor
  · rintro ⟨type', found, ⟨k', -, hk'⟩, himpl⟩
    -- the key tells the class
    obtain rfl := hbound.index_unique hk hk'
    cases hk.symm.trans hk'
    exact ⟨found, himpl⟩
  · rintro ⟨found, himpl⟩
    exact ⟨type, found, ⟨k, hcovers.mem.2 ⟨(Array.getElem?_eq_some_iff.1 hs).1,
      (Array.getElem?_eq_some_iff.1 hk).1⟩, hk⟩, himpl⟩

end Registry

namespace Program

/-- **Subtypes are those that one of the first 257 walks leads to.** Each of them derives from the
target; where there are no more walks than that, all types that derive from the target are subtypes, in
circles and where ways meet again; and a slot is bound to just those concrete classes of a build that
have a method for it and one of whose first 257 walks leads to the owner of the slot. -/
theorem isSubtype_exact (c : BuildContext) :
    (∀ id target, c.program.isSubtype id target = true ↔
      ∃ w, c.program.walk id w = some target ∧ (c.program.earlier id w).encard ≤ 256) ∧
    (∀ id target, c.program.Derives id target ↔ ∃ w, c.program.walk id w = some target) ∧
    (∀ id target, c.program.isSubtype id target = true → c.program.Derives id target) ∧
    (∀ id target, (c.program.walks id).encard ≤ 257 →
      (c.program.isSubtype id target = true ↔ c.program.Derives id target)) ∧
    ∀ start index iterations r r', Registry.compileEntry c start {} = .ok index r →
      Registry.bindSlots c r = .ok iterations r' → ∀ slot ∈ r'.slots, ∀ key id args owner ownerArgs,
      (key, .named id args) ∈ r'.classes → slot.owner = .named owner ownerArgs →
      (key ∈ slot.implementors.map (·.1) ↔ c.program.isConcrete id = true ∧
        slot.Offered c.program ownerArgs (.named id args) ∧
        ∃ w, c.program.walk id w = some owner ∧ (c.program.earlier id w).encard ≤ 256) := by
  have sound : ∀ id target, c.program.isSubtype id target = true → c.program.Derives id target := by
    intro id target h
    obtain ⟨w, hw, -⟩ := isSubtype_iff.1 h
    exact derives_iff_walk.2 ⟨w, hw⟩
  refine ⟨fun _ _ => isSubtype_iff, fun _ _ => derives_iff_walk, sound, fun id target hwalks =>
    ⟨sound id target, isSubtype_of_walks hwalks⟩, ?_⟩
  intro start index iterations r r' hentry hbind slot hslot key id args owner ownerArgs hclass howner
  rw [Registry.implementor_iff hentry hbind hslot hclass, VirtualSlot.implementation_some_iff howner,
    isSubtype_iff]

/-- A probe is a sensor, and has interfaces in eight pairs, each of which extends both of the pair
before. -/
def braid : BuildContext where
  program := {
    types := #[{ name := "Sensor", isAbstract := true, methods := [⟨0⟩] }] ++
      ((List.range 16).map fun k =>
        { name := "I" ++ toString k, kind := .interfaceType
          interfaces := if k < 2 then [] else
            [.named ⟨(k - k % 2 - 1).toUInt32⟩ [], .named ⟨(k - k % 2).toUInt32⟩ []] }).toArray ++
      #[{ name := "Probe", base := some (.named ⟨0⟩ [])
          interfaces := [.named ⟨15⟩ [], .named ⟨16⟩ []], methods := [⟨1⟩, ⟨2⟩] },
        { name := "P", methods := [⟨3⟩] }]
    methods := #[
      { name := "Read", declaring := ⟨0⟩, ret := .primitive .i32, isAbstract := true
        isVirtual := true },
      { name := ".ctor", declaring := ⟨17⟩, body := some { code := #[{ op := .ret }] } },
      { name := "Read", declaring := ⟨17⟩, ret := .primitive .i32, isVirtual := true
        body := some { code := #[{ op := .const (.i4 7) }, { op := .ret }] } },
      { name := "Main", declaring := ⟨18⟩, ret := .primitive .i32, isStatic := true
        body := some { code := #[{ op := .newObject ⟨.named ⟨17⟩ [], ".ctor", [], .void, true⟩ },
          { op := .call true ⟨.named ⟨0⟩ [], "Read", [], .primitive .i32, true⟩ },
          { op := .ret }] } }] }

def braidEntry : MethodRef := ⟨.named ⟨18⟩ [], "Main", [], .primitive .i32, false⟩

/-- The probe derives from the sensor, and does not pass for one: 511 walks come before the one to its
base. So no class is left for the slot that the program calls. -/
theorem braid_left_out :
    braid.program.Derives ⟨17⟩ ⟨0⟩ ∧ braid.program.isSubtype ⟨17⟩ ⟨0⟩ = false ∧
      braid.compileAndLink braidEntry {} = .error (.unsatisfiedVirtualSlot "Sensor.Read()" [])
        (stateAfter (braid.compileAndLink braidEntry) {}) := by
  refine ⟨.single (mem_parents.1 ?_), by decide +kernel, by decide +kernel⟩
  decide +kernel

end Program

end DeviceCode
