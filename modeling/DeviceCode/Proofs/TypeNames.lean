import DeviceCode.Proofs.Descriptors

/-!
# Full names as keys

Classes, layouts, fields, virtual slots and descriptors are kept under full names. `Program.NamesApart`:
the names of a program's types are distinct, without the signs that join names, and none is reserved.
Then a full name can be read in one way only. A list of type arguments is taken apart by `cut`, which
stops at the first `,` or `>` that belongs to no bracket. Main statement: `NamesApart.keptApart`.
-/

namespace DeviceCode

open List

namespace Program

/-- The signs that join names. -/
def joiners : List Char := ['<', '>', ',', ' ', '[', ']', '&', '*']

/-- The names of the types without a definition, parameters apart. -/
def reserved : List String := ["Void", "System.String", "System.Object"] ++ Primitive.all.map (·.name)

/-- The names of the types are distinct, have no joining signs and are not reserved. -/
structure NamesApart (p : Program) : Prop where
  distinct : ∀ {i j d e}, p.typeDef? i = some d → p.typeDef? j = some e → d.name = e.name → i = j
  plain : ∀ {i d}, p.typeDef? i = some d → ∀ c ∈ d.name.toList, c ∉ joiners
  unreserved : ∀ {i d}, p.typeDef? i = some d → d.name ∉ reserved
  noParam : ∀ {i d}, p.typeDef? i = some d → ∀ n : Nat, d.name ≠ "T" ++ toString n

mutual

/-- Every definition that the type names is there. -/
def resolves (p : Program) : TypeRef → Bool
  | .array t | .byRef t | .pointer t => p.resolves t
  | .named id args => (p.typeDef? id).isSome && p.resolvesAll args
  | _ => true

def resolvesAll (p : Program) : List TypeRef → Bool
  | [] => true
  | t :: ts => p.resolves t && p.resolvesAll ts

end

variable {p : Program} {id : TypeId} {d : TypeDef} {t u : TypeRef} {args : List TypeRef}

theorem resolves_named : p.resolves (.named id args) ↔
    (∃ d, p.typeDef? id = some d) ∧ p.resolvesAll args := by
  rw [resolves, Bool.and_eq_true, Option.isSome_iff_exists]

theorem resolvesAll_cons : p.resolvesAll (t :: args) ↔ p.resolves t ∧ p.resolvesAll args := by
  rw [resolvesAll, Bool.and_eq_true]

/-! ## The characters of a name -/

def nameChars (p : Program) (t : TypeRef) : List Char := (p.fullName t).toList

/-- Arguments as they follow another one. -/
def tailChars (p : Program) (ts : List TypeRef) : List Char :=
  ts.flatMap fun t => ',' :: ' ' :: p.nameChars t

theorem tailChars_cons (t : TypeRef) (ts : List TypeRef) :
    p.tailChars (t :: ts) = ',' :: ' ' :: (p.nameChars t ++ p.tailChars ts) := rfl

theorem typeNames_eq_map (s : Spelling) (ts : List TypeRef) :
    p.typeNames s ts = ts.map (p.typeName s) := by
  induction ts with
  | nil => rfl
  | cons t ts ih => rw [typeNames, ih, map_cons]

theorem toList_join (ts : List TypeRef) : ∀ s : String,
    ((ts.map p.fullName).foldl (fun text t => text ++ ", " ++ t) s).toList =
      s.toList ++ p.tailChars ts := by
  induction ts with
  | nil => exact fun s => (append_nil _).symm
  | cons t ts ih =>
    intro s
    rw [map_cons, foldl_cons, ih, tailChars_cons]
    simp [nameChars]

/-- The types whose names end in a sign behind that of their part. -/
inductive Wrapper where
  | array
  | byRef
  | pointer

namespace Wrapper

def type : Wrapper → TypeRef → TypeRef
  | array => .array
  | byRef => .byRef
  | pointer => .pointer

def sign : Wrapper → List Char
  | array => ['[', ']']
  | byRef => ['&']
  | pointer => ['*']

theorem nameChars_type (w : Wrapper) (t : TypeRef) : p.nameChars (w.type t) = p.nameChars t ++ w.sign := by
  cases w <;> simp [type, sign, nameChars, fullName, typeName]

theorem resolves_type (w : Wrapper) (t : TypeRef) : p.resolves (w.type t) = p.resolves t := by
  cases w <;> rfl

end Wrapper

theorem nameChars_param (i : UInt16) : p.nameChars (.param i) = 'T' :: Nat.toDigits 10 i.toNat := by
  simp [nameChars, fullName, typeName]

theorem nameChars_generic (hd : p.typeDef? id = some d) (t : TypeRef) (ts : List TypeRef) :
    p.nameChars (.named id (t :: ts)) =
      d.name.toList ++ '<' :: (p.nameChars t ++ (p.tailChars ts ++ ['>'])) := by
  have hname : p.fullName (.named id (t :: ts)) =
      d.name ++ "<" ++ (ts.map p.fullName).foldl (fun text t => text ++ ", " ++ t) (p.fullName t) ++ ">" := by
    simp only [fullName, typeName, hd, isEmpty_cons, typeNames_eq_map]
    rfl
  rw [nameChars, hname]
  simp only [String.toList_append, toList_join, nameChars, append_assoc]
  rfl

/-! ## Types by the ends of their names -/

/-- The sign that ends the name of a composite type. -/
def endSign : TypeRef → Option Char
  | .array _ => some ']'
  | .byRef _ => some '&'
  | .pointer _ => some '*'
  | .named _ (_ :: _) => some '>'
  | _ => none

theorem nameChars_of_endSign {c : Char} (ht : p.resolves t) (hc : endSign t = some c) :
    c ∈ joiners ∧ (p.nameChars t).getLast? = some c := by
  have hwrapped (w : Wrapper) (u : TypeRef) : (p.nameChars (w.type u)).getLast? = w.sign.getLast? := by
    rw [w.nameChars_type, getLast?_append]
    cases w <;> rfl
  unfold endSign at hc
  split at hc
  · cases hc
    exact ⟨by decide, hwrapped .array _⟩
  · cases hc
    exact ⟨by decide, hwrapped .byRef _⟩
  · cases hc
    exact ⟨by decide, hwrapped .pointer _⟩
  · cases hc
    obtain ⟨⟨d, hd⟩, -⟩ := resolves_named.1 ht
    refine ⟨by decide, ?_⟩
    rw [nameChars_generic hd, ← cons_append, ← append_assoc, ← append_assoc, getLast?_append]
    rfl
  · cases hc

theorem eq_type_of_endSign (w : Wrapper) (h : endSign t = w.sign.getLast?) : ∃ v, t = w.type v := by
  unfold endSign at h
  cases w <;> split at h <;> simp_all [Wrapper.sign, Wrapper.type]

theorem eq_generic_of_endSign (h : endSign t = some '>') : ∃ id v vs, t = .named id (v :: vs) := by
  unfold endSign at h
  split at h <;> simp_all

/-- The types that have the reserved names. -/
def constants : List TypeRef := [.void, .string, .object] ++ Primitive.all.map .primitive

theorem map_fullName_constants (p : Program) : constants.map p.fullName = reserved := rfl

theorem fullName_constant (h : t ∈ constants) : p.fullName t ∈ reserved :=
  map_fullName_constants p ▸ mem_map_of_mem h

/-- The types whose names have no parts. -/
inductive Atom (p : Program) : TypeRef → Prop
  | constant {t : TypeRef} (h : t ∈ constants) : Atom p t
  | param (i : UInt16) : Atom p (.param i)
  | named {id : TypeId} {d : TypeDef} (hd : p.typeDef? id = some d) : Atom p (.named id [])

theorem atom_of_endSign (ht : p.resolves t) (h : endSign t = none) : p.Atom t := by
  cases t with
  | void => exact .constant (by decide)
  | primitive q => exact .constant (by cases q <;> decide)
  | string | object => exact .constant (by decide)
  | param i => exact .param i
  | named id args =>
    cases args with
    | cons => cases h
    | nil =>
      obtain ⟨⟨d, hd⟩, -⟩ := resolves_named.1 ht
      exact .named hd
  | array | byRef | pointer => cases h

theorem plain_of_all {cs : List Char} (h : (cs.all fun c => !joiners.contains c) = true) :
    ∀ c ∈ cs, c ∉ joiners := by simpa using h

theorem reserved_plain : ∀ s ∈ reserved, ∀ c ∈ s.toList, c ∉ joiners := by
  have h : (reserved.all fun s => s.toList.all fun c => !joiners.contains c) = true := by decide +kernel
  exact fun s hs => plain_of_all (all_eq_true.1 h s hs)

theorem reserved_head : ∀ s ∈ reserved, s.toList.head? ≠ some 'T' := by decide +kernel

theorem digits_plain {n : Nat} {c : Char} (hc : c ∈ Nat.toDigits 10 n) : c ∉ joiners := by
  have hdigit := Nat.isDigit_of_mem_toDigits (by decide) (by decide) hc
  intro hjoiner
  simp only [joiners, mem_cons, not_mem_nil, or_false] at hjoiner
  rcases hjoiner with rfl | rfl | rfl | rfl | rfl | rfl | rfl | rfl <;> cases hdigit

theorem reserved_nodup : reserved.Nodup := by decide +kernel

theorem param_unreserved (i : UInt16) : p.fullName (.param i) ∉ reserved := fun h =>
  reserved_head _ h (by rw [show (p.fullName (.param i)).toList = _ from nameChars_param i]; rfl)

/-! ## Taking arguments apart -/

/-- The text up to the first `,` or `>` that belongs to none of the `depth` open brackets. -/
def cut (depth : Nat) : List Char → List Char
  | [] => []
  | c :: cs =>
    if depth = 0 ∧ (c = ',' ∨ c = '>') then []
    else c :: cut (if c = '<' then depth + 1 else if c = '>' then depth - 1 else depth) cs

theorem cut_word {cs : List Char} (h : ∀ c ∈ cs, c ∉ ['<', '>', ',']) (depth : Nat) (rest : List Char) :
    cut depth (cs ++ rest) = cs ++ cut depth rest := by
  induction cs with
  | nil => rfl
  | cons c cs ih =>
    obtain ⟨hc, hcs⟩ := forall_mem_cons.1 h
    simp only [mem_cons, not_mem_nil, or_false, not_or] at hc
    simp [cut, hc, ih hcs]

theorem cut_plain {cs : List Char} (h : ∀ c ∈ cs, c ∉ joiners) (depth : Nat) (rest : List Char) :
    cut depth (cs ++ rest) = cs ++ cut depth rest :=
  have hsubset : ['<', '>', ','] ⊆ joiners := by decide
  cut_word (fun c hc hmem => h c hc (hsubset hmem)) depth rest

theorem cut_type (w : Wrapper)
    (h : ∀ depth rest, cut depth (p.nameChars t ++ rest) = p.nameChars t ++ cut depth rest)
    (depth : Nat) (rest : List Char) :
    cut depth (p.nameChars (w.type t) ++ rest) = p.nameChars (w.type t) ++ cut depth rest := by
  rw [w.nameChars_type, append_assoc, h, cut_word (by cases w <;> simp [Wrapper.sign]), append_assoc]

theorem cut_tailChars_nil (ts : List TypeRef) (rest : List Char) :
    cut 0 (p.tailChars ts ++ '>' :: rest) = [] := by
  cases ts with
  | nil => rfl
  | cons t ts => rfl

theorem eq_of_append_cons {c : Char} {r r' : List Char} : ∀ {xs ys : List Char}, c ∉ xs → c ∉ ys →
    xs ++ c :: r = ys ++ c :: r' → xs = ys ∧ r = r'
  | [], [], _, _, h => ⟨rfl, (cons.inj h).2⟩
  | [], y :: ys, _, hy, h => absurd (cons.inj h).1 (ne_of_not_mem_cons hy)
  | x :: xs, [], hx, _, h => absurd (cons.inj h).1.symm (ne_of_not_mem_cons hx)
  | x :: xs, y :: ys, hx, hy, h => by
    obtain ⟨hxy, h⟩ := cons.inj h
    obtain ⟨hxs, hr⟩ := eq_of_append_cons (not_mem_of_not_mem_cons hx) (not_mem_of_not_mem_cons hy) h
    exact ⟨by rw [hxy, hxs], hr⟩

/-! ## Tables -/

/-- The classes are kept under their own names. -/
def ClassesNamed (p : Program) (r : Registry) : Prop :=
  ∀ e ∈ r.classes, p.resolves e.2 ∧ e.1 = p.fullName e.2

theorem fullName_of_classId? {table : LayoutTable} {i : Nat} (ht : table.classId? (p.fullName t) = some i)
    (hu : table.classId? (p.fullName u) = some i) : p.fullName t = p.fullName u := by
  obtain ⟨hi, hkey, -⟩ := Array.findIdx?_eq_some_iff_getElem.1 ht
  obtain ⟨_, hkey', -⟩ := Array.findIdx?_eq_some_iff_getElem.1 hu
  exact (eq_of_beq hkey).symm.trans (eq_of_beq hkey')

/-- The owner of a field is the type that declares it. -/
theorem declaring_of_addOwnField : ∀ (uses : List FieldUse) {own : List (String × FieldUse)},
    (∀ e ∈ own, e.1 = p.fullName e.2.declaring ∧ p.resolves e.2.declaring) →
      (∀ f ∈ uses, p.resolves f.declaring) →
        ∀ e ∈ uses.foldl (LayoutTable.addOwnField p) own, e.1 = p.fullName e.2.declaring ∧
          p.resolves e.2.declaring
  | [], _, hown, _ => hown
  | f :: uses, own, hown, huses => by
    refine declaring_of_addOwnField uses (fun e he => ?_) fun f hf => huses f (mem_cons_of_mem _ hf)
    unfold LayoutTable.addOwnField at he
    dsimp only at he
    split at he
    · exact hown e he
    · rcases mem_append.1 he with he | he
      · exact hown e he
      · obtain rfl := mem_singleton.1 he
        exact ⟨rfl, huses f mem_cons_self⟩

theorem resolves_pointee : ∀ t : TypeRef, p.resolves t.pointee = p.resolves t
  | .byRef t | .pointer t => resolves_pointee t
  | .array _ | .named _ _ | .void | .primitive _ | .string | .object | .param _ => rfl

/-! ## Names determine types -/

theorem Atom.plain (hp : p.NamesApart) (h : p.Atom t) : ∀ c ∈ p.nameChars t, c ∉ joiners := by
  cases h with
  | constant h => exact reserved_plain _ (fullName_constant h)
  | param i =>
    rw [nameChars_param]
    intro c hc
    rcases mem_cons.1 hc with rfl | hc
    · decide
    · exact digits_plain hc
  | named hd =>
    rw [nameChars, fullName_named hd]
    exact hp.plain hd

mutual

/-- A name passes whole: its commas stand in brackets, and these are closed. -/
theorem cut_nameChars (hp : p.NamesApart) :
    ∀ (t : TypeRef), p.resolves t → ∀ (depth : Nat) (rest : List Char),
    cut depth (p.nameChars t ++ rest) = p.nameChars t ++ cut depth rest
  | .array t, ht => cut_type .array (cut_nameChars hp t ht)
  | .byRef t, ht => cut_type .byRef (cut_nameChars hp t ht)
  | .pointer t, ht => cut_type .pointer (cut_nameChars hp t ht)
  | .named id (t :: ts), ht => fun depth rest => by
    rw [resolves_named, resolvesAll_cons] at ht
    obtain ⟨⟨d, hd⟩, ht, hts⟩ := ht
    rw [nameChars_generic hd, append_assoc, cut_plain (hp.plain hd), cons_append]
    simp [cut, cut_nameChars hp t ht, cut_tailChars hp ts hts]
  | .named _ [], ht | .void, ht | .primitive _, ht | .string, ht | .object, ht | .param _, ht =>
    cut_plain ((atom_of_endSign ht rfl).plain hp)

theorem cut_tailChars (hp : p.NamesApart) :
    ∀ (ts : List TypeRef), p.resolvesAll ts → ∀ (depth : Nat) (rest : List Char),
    cut (depth + 1) (p.tailChars ts ++ rest) = p.tailChars ts ++ cut (depth + 1) rest
  | [], _, _, _ => rfl
  | t :: ts, h, depth, rest => by
    rw [resolvesAll_cons] at h
    simp [tailChars_cons, cut, cut_nameChars hp t h.1, cut_tailChars hp ts h.2]

end

section
variable (hp : p.NamesApart)
include hp

/-- One name shows one sign at its end. -/
theorem endSign_eq (ht : p.resolves t) (hu : p.resolves u)
    (h : p.nameChars t = p.nameChars u) : endSign t = endSign u := by
  cases hc : endSign t with
  | some c =>
    obtain ⟨hjoiner, hlast⟩ := nameChars_of_endSign ht hc
    cases hc' : endSign u with
    | some c' => rw [← hlast, h, (nameChars_of_endSign hu hc').2]
    | none => exact absurd hjoiner ((atom_of_endSign hu hc').plain hp c (h ▸ mem_of_getLast? hlast))
  | none =>
    cases hc' : endSign u with
    | some c' =>
      obtain ⟨hjoiner, hlast⟩ := nameChars_of_endSign hu hc'
      exact absurd hjoiner ((atom_of_endSign ht hc).plain hp c' (h ▸ mem_of_getLast? hlast))
    | none => rfl

theorem Atom.eq_of_fullName (ht : p.Atom t) (hu : p.Atom u)
    (h : p.fullName t = p.fullName u) : t = u := by
  cases ht with
  | constant ht =>
    cases hu with
    | constant hu => exact inj_on_of_nodup_map (map_fullName_constants p ▸ reserved_nodup) ht hu h
    | param i => exact absurd (h ▸ fullName_constant ht) (param_unreserved i)
    | named hd => exact absurd (fullName_named hd ▸ h ▸ fullName_constant ht) (hp.unreserved hd)
  | param i =>
    cases hu with
    | constant hu => exact absurd (h ▸ fullName_constant hu) (param_unreserved i)
    | param j =>
      have hchars : p.nameChars (.param i) = p.nameChars (.param j) := congrArg String.toList h
      rw [nameChars_param, nameChars_param, cons.injEq] at hchars
      have hnat := congrArg (Nat.ofDigitChars 10 · 0) hchars.2
      simp only [Nat.ofDigitChars_ten_toDigits] at hnat
      rw [UInt16.toNat_inj.1 hnat]
    | named hd => exact absurd ((fullName_named hd).symm.trans h.symm) (hp.noParam hd _)
  | named hd =>
    cases hu with
    | constant hu => exact absurd (fullName_named hd ▸ h ▸ fullName_constant hu) (hp.unreserved hd)
    | param i => exact absurd ((fullName_named hd).symm.trans h) (hp.noParam hd _)
    | named he =>
      rw [hp.distinct hd he (by rw [← fullName_named hd, h, fullName_named he])]

theorem args_split {ts us : List TypeRef} {r r' : List Char} (ht : p.resolves t) (hu : p.resolves u)
    (h : p.nameChars t ++ (p.tailChars ts ++ '>' :: r) = p.nameChars u ++ (p.tailChars us ++ '>' :: r')) :
    p.nameChars t = p.nameChars u ∧ p.tailChars ts ++ '>' :: r = p.tailChars us ++ '>' :: r' := by
  have hcut := congrArg (cut 0) h
  rw [cut_nameChars hp t ht, cut_nameChars hp u hu, cut_tailChars_nil, cut_tailChars_nil, append_nil,
    append_nil] at hcut
  rw [hcut] at h
  exact ⟨hcut, append_cancel_left h⟩

theorem eq_of_atom (ht : p.resolves t) (hu : p.resolves u) (hnone : endSign t = none)
    (h : p.nameChars t = p.nameChars u) : t = u :=
  (atom_of_endSign ht hnone).eq_of_fullName hp (atom_of_endSign hu (endSign_eq hp ht hu h ▸ hnone))
    (String.toList_inj.1 h)

theorem eq_of_type (w : Wrapper) (ht : p.resolves (w.type t)) (hu : p.resolves u)
    (h : p.nameChars (w.type t) = p.nameChars u)
    (hpart : ∀ v, p.resolves v → p.nameChars t = p.nameChars v → t = v) : w.type t = u := by
  have hsign : endSign (w.type t) = w.sign.getLast? := by cases w <;> rfl
  obtain ⟨v, rfl⟩ := eq_type_of_endSign w ((endSign_eq hp ht hu h).symm.trans hsign)
  rw [w.nameChars_type, w.nameChars_type] at h
  rw [hpart v (w.resolves_type v ▸ hu) (append_cancel_right h)]

mutual

theorem eq_of_nameChars :
    ∀ (t u : TypeRef), p.resolves t → p.resolves u → p.nameChars t = p.nameChars u → t = u
  | .array t, _, ht, hu, h => eq_of_type hp .array ht hu h fun v => eq_of_nameChars t v ht
  | .byRef t, _, ht, hu, h => eq_of_type hp .byRef ht hu h fun v => eq_of_nameChars t v ht
  | .pointer t, _, ht, hu, h => eq_of_type hp .pointer ht hu h fun v => eq_of_nameChars t v ht
  | .named id (t :: ts), _, ht, hu, h => by
    obtain ⟨id', u, us, rfl⟩ := eq_generic_of_endSign (endSign_eq hp ht hu h).symm
    rw [resolves_named, resolvesAll_cons] at ht hu
    obtain ⟨⟨d, hd⟩, ht, hts⟩ := ht
    obtain ⟨⟨e, he⟩, hu, hus⟩ := hu
    rw [nameChars_generic hd, nameChars_generic he] at h
    have hbracket {i : TypeId} {d : TypeDef} (hd : p.typeDef? i = some d) : '<' ∉ d.name.toList :=
      fun hmem => hp.plain hd _ hmem (by decide)
    obtain ⟨hname, hargs⟩ := eq_of_append_cons (hbracket hd) (hbracket he) h
    obtain ⟨hhead, htail⟩ := args_split hp ht hu hargs
    rw [hp.distinct hd he (String.toList_inj.1 hname), eq_of_nameChars t u ht hu hhead,
      eq_of_tailChars ts us hts hus htail]
  | .named _ [], _, ht, hu, h | .void, _, ht, hu, h | .primitive _, _, ht, hu, h | .string, _, ht, hu, h
  | .object, _, ht, hu, h | .param _, _, ht, hu, h => eq_of_atom hp ht hu rfl h

theorem eq_of_tailChars : ∀ (ts us : List TypeRef), p.resolvesAll ts → p.resolvesAll us →
    ∀ {r r' : List Char}, p.tailChars ts ++ '>' :: r = p.tailChars us ++ '>' :: r' → ts = us
  | [], [], _, _, _, _, _ => rfl
  | [], _ :: _, _, _, _, _, h => absurd (cons.inj h).1 (by decide)
  | _ :: _, [], _, _, _, _, h => absurd (cons.inj h).1 (by decide)
  | t :: ts, u :: us, hts, hus, r, r', h => by
    rw [resolvesAll_cons] at hts hus
    simp only [tailChars_cons, cons_append, append_assoc, cons.injEq, true_and] at h
    obtain ⟨hhead, htail⟩ := args_split hp hts.1 hus.1 h
    rw [eq_of_nameChars t u hts.1 hus.1 hhead, eq_of_tailChars ts us hts.2 hus.2 htail]

end

theorem eq_of_fullName (ht : p.resolves t) (hu : p.resolves u)
    (h : p.fullName t = p.fullName u) : t = u :=
  eq_of_nameChars hp t u ht hu (congrArg String.toList h)

/-! ## Tables with full names -/

theorem mem_discoverClass {r : Registry} (hr : p.ClassesNamed r) (ht : p.resolves t)
    (e : String × TypeRef) :
    e ∈ (r.discoverClass p t).classes ↔ e ∈ r.classes ∨ e = (p.fullName t, t) := by
  unfold Registry.discoverClass
  dsimp only
  split
  · rename_i hknown
    obtain ⟨e', he', hkey⟩ := Array.any_eq_true'.1 hknown
    obtain ⟨hresolves, hname⟩ := hr e' he'
    obtain rfl := eq_of_fullName hp hresolves ht (hname.symm.trans (eq_of_beq hkey))
    refine ⟨.inl, fun h => h.elim id ?_⟩
    rintro rfl
    rwa [← hname]
  · exact Array.mem_push

/-- Each type that is discovered is kept itself, under its name. -/
theorem mem_discovered : ∀ (ts : List TypeRef), p.resolvesAll ts → ∀ {r : Registry},
    p.ClassesNamed r → ∀ e, e ∈ (ts.foldl (fun r t => r.discoverClass p t) r).classes ↔
      e ∈ r.classes ∨ ∃ t ∈ ts, e = (p.fullName t, t)
  | [], _, r, _, e => by simp
  | t :: ts, hts, r, hr, e => by
    rw [resolvesAll_cons] at hts
    have hstep := mem_discoverClass hp hr hts.1
    have hnamed : p.ClassesNamed (r.discoverClass p t) := fun e he => by
      rcases (hstep e).1 he with he | rfl
      · exact hr e he
      · exact ⟨hts.1, rfl⟩
    rw [foldl_cons, mem_discovered ts hts.2 hnamed, hstep, exists_mem_cons_iff, or_assoc]

/-- Two types that are laid out in turn share an id only if they are one. -/
theorem eq_of_ensureClass (ht : p.resolves t) (hu : p.resolves u)
    {table table₁ table₂ : LayoutTable} (hreached : LayoutTable.Reached p table) {m n i : Nat}
    (h₁ : LayoutTable.ensureClass p (m + 1) t table = .ok (some i) table₁)
    (h₂ : LayoutTable.ensureClass p (n + 1) u table₁ = .ok (some i) table₂) : t = u := by
  have hreached₁ := stateAfter_ok h₁ ▸ hreached.layOut (m + 1) t
  have hreached₂ := stateAfter_ok h₂ ▸ hreached₁.layOut (n + 1) u
  have hgrown := stateAfter_ok h₂ ▸ LayoutTable.advances_ensureClass p (n + 1) u table₁
  have hid := LayoutTable.classId?_of_layOut h₁ hreached₁.sound.toLaidOut
  exact eq_of_fullName hp ht hu (fullName_of_classId? (LayoutTable.classId?_mono hgrown.classes hid)
    (LayoutTable.classId?_of_layOut h₂ hreached₂.sound.toLaidOut))

/-- One method has one signature for one choice of type arguments only. -/
theorem args_of_signature {m : MethodDef} {args args' : List TypeRef}
    (hargs : p.resolves (.named m.declaring args)) (hargs' : p.resolves (.named m.declaring args'))
    (h : m.signature p args = m.signature p args') : args = args' := by
  have hchars (args : List TypeRef) : ∃ r, (m.signature p args).toList =
      p.nameChars (.named m.declaring args) ++ '.' :: r := by
    simp [MethodDef.signature, nameChars]
  obtain ⟨r, hr⟩ := hchars args
  obtain ⟨r', hr'⟩ := hchars args'
  rw [h, hr'] at hr
  rw [resolves_named] at hargs hargs'
  obtain ⟨⟨d, hd⟩, hargs⟩ := hargs
  have hplain : p.nameChars (.named m.declaring []) = d.name.toList := congrArg _ (fullName_named hd)
  cases args with
  | nil =>
    cases args' with
    | nil => rfl
    | cons u us =>
      rw [hplain, nameChars_generic hd, append_assoc] at hr
      exact absurd (cons.inj (append_cancel_left hr)).1 (by decide)
  | cons t ts =>
    cases args' with
    | nil =>
      rw [hplain, nameChars_generic hd, append_assoc] at hr
      exact absurd (cons.inj (append_cancel_left hr)).1 (by decide)
    | cons u us =>
      rw [resolvesAll_cons] at hargs
      obtain ⟨hu, hus⟩ := resolvesAll_cons.1 hargs'.2
      simp only [nameChars_generic hd, append_assoc, cons_append, append_cancel_left_eq,
        cons.injEq, true_and, nil_append] at hr
      obtain ⟨hhead, htail⟩ := args_split hp hu hargs.1 hr
      rw [eq_of_nameChars hp u t hu hargs.1 hhead, eq_of_tailChars hp us ts hus hargs.2 htail]

theorem pointee_of_structKey {key : String} (ht : p.resolves t) (hu : p.resolves u)
    (hkey : DescriptorKey.ofType p t = .ok (.struct key))
    (hkey' : DescriptorKey.ofType p u = .ok (.struct key)) :
    t.pointee = u.pointee := by
  obtain ⟨id, args, -, hpointee, -, -, rfl⟩ := DescriptorKey.ofType_struct hkey
  obtain ⟨id', args', -, hpointee', -, -, hname⟩ := DescriptorKey.ofType_struct hkey'
  rw [← resolves_pointee, hpointee] at ht
  rw [← resolves_pointee, hpointee'] at hu
  rw [hpointee, hpointee', eq_of_fullName hp ht hu hname]

end

/-- What full names keep apart. -/
structure KeptApart (p : Program) : Prop where
  types : ∀ {t u}, p.resolves t → p.resolves u → p.fullName t = p.fullName u → t = u
  /-- Each class that is discovered has an entry of its own. -/
  classes : ∀ {ts}, p.resolvesAll ts → ∀ {key t},
    (key, t) ∈ (ts.foldl (fun r t => r.discoverClass p t) ({} : Registry)).classes ↔
      key = p.fullName t ∧ t ∈ ts
  /-- Two classes that are laid out have two ids. -/
  layouts : ∀ {t u}, p.resolves t → p.resolves u → ∀ {table table₁ table₂}, LayoutTable.Reached p table →
    ∀ {m n i}, LayoutTable.ensureClass p (m + 1) t table = .ok (some i) table₁ →
      LayoutTable.ensureClass p (n + 1) u table₁ = .ok (some i) table₂ → t = u
  /-- The fields that are laid out for a class are those that it declares. -/
  fields : ∀ {uses : List FieldUse}, (∀ f ∈ uses, p.resolves f.declaring) → ∀ {t}, p.resolves t →
    ∀ {f}, (p.fullName t, f) ∈ uses.foldl (LayoutTable.addOwnField p) [] → f.declaring = t
  /-- The slots of a method for two owners have two keys. -/
  slots : ∀ {m : MethodDef} {args args'}, p.resolves (.named m.declaring args) →
    p.resolves (.named m.declaring args') → m.signature p args = m.signature p args' → args = args'
  /-- Two structures have two descriptors. -/
  structs : ∀ {t u key}, p.resolves t → p.resolves u → DescriptorKey.ofType p t = .ok (.struct key) →
    DescriptorKey.ofType p u = .ok (.struct key) → t.pointee = u.pointee

/-- **Full names are keys.** -/
theorem NamesApart.keptApart (hp : p.NamesApart) : p.KeptApart where
  types := eq_of_fullName hp
  classes {ts} hts {key t} := by
    rw [mem_discovered hp ts hts (by simp [ClassesNamed])]
    simp only [Array.not_mem_empty, false_or, Prod.mk.injEq]
    refine ⟨?_, fun ⟨hkey, ht⟩ => ⟨t, ht, hkey, rfl⟩⟩
    rintro ⟨t, ht, rfl, rfl⟩
    exact ⟨rfl, ht⟩
  layouts := eq_of_ensureClass hp
  fields {uses} huses {t} ht {f} hf := by
    obtain ⟨hname, hresolves⟩ := declaring_of_addOwnField uses (by simp) huses _ hf
    exact (eq_of_fullName hp ht hresolves hname).symm
  slots := args_of_signature hp
  structs := pointee_of_structKey hp

/-- A structure and a class with type arguments. -/
def boxes : Program where
  types := #[{ name := "Box", genericParams := 2, kind := .structType }, { name := "Sets.Set" }]

theorem boxes_namesApart : boxes.NamesApart := by
  have hcases {i : TypeId} {d : TypeDef} (h : boxes.typeDef? i = some d) :
      i = ⟨0⟩ ∧ d.name = "Box" ∨ i = ⟨1⟩ ∧ d.name = "Sets.Set" := by
    have hi : i.index < 2 := (Array.getElem?_eq_some_iff.1 h).1
    unfold typeDef? at h
    rcases (by omega : i.index = 0 ∨ i.index = 1) with hi | hi
    · rw [hi] at h
      cases h
      exact .inl ⟨congrArg TypeId.mk (UInt32.toNat_inj.1 hi), rfl⟩
    · rw [hi] at h
      cases h
      exact .inr ⟨congrArg TypeId.mk (UInt32.toNat_inj.1 hi), rfl⟩
  refine ⟨fun hd he hname => ?_, fun hd => ?_, fun hd => ?_, fun hd n hn => ?_⟩
  · rcases hcases hd with ⟨rfl, h⟩ | ⟨rfl, h⟩ <;> rcases hcases he with ⟨rfl, h'⟩ | ⟨rfl, h'⟩ <;> simp_all
  · rcases hcases hd with ⟨-, h⟩ | ⟨-, h⟩ <;> rw [h] <;> exact plain_of_all (by decide +kernel)
  · rcases hcases hd with ⟨-, h⟩ | ⟨-, h⟩ <;> rw [h] <;> decide +kernel
  · have hhead := congrArg (·.toList.head?) hn
    rcases hcases hd with ⟨-, h⟩ | ⟨-, h⟩ <;> simp [h] at hhead

/-- Brackets tell apart what is in them. -/
theorem boxes_keptApart : boxes.NamesApart ∧
    boxes.fullName (.named ⟨0⟩ [.named ⟨1⟩ [.string], .object]) ≠
      boxes.fullName (.named ⟨0⟩ [.named ⟨1⟩ [.string, .object]]) :=
  ⟨boxes_namesApart, fun h => absurd (boxes_namesApart.keptApart.types rfl rfl h) (by decide)⟩

end Program

end DeviceCode
