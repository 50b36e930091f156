import DeviceCode.Proofs.CUnit.Effects
import DeviceCode.Proofs.CUnit.Text
import DeviceCode.Proofs.CUnit.Variables

/-!
# Where variables stand

`CScope.Places`: the places by which the instructions of a method access a variable, and the temporaries.
Main statement: `Registry.variablesApart`, in a linked build whose accesses to a field all take it in the
same way (`Registry.accessesAgree`), different variables have no byte in common. Offsets are those of
payloads, so the areas must end within 64 KiB.
-/

namespace DeviceCode

variable {type : CType} {tag tag' : Tag} {offset : UInt16} {key : String} {region host : Bool}

/-- The method has the variable in the place. -/
inductive CScope.Places (s : CScope) (code : Array Instruction) : CVar → CPlace → Prop
  | accessed {i : Nat} {instruction : Instruction} {access : Access} {place : CPlace} {type : CType}
    {v : CVar} (there : code[i]? = some instruction)
    (accesses : CEmitter.Accesses s i access instruction.op place type v) : Places s code v place
  | temporary (depth : Nat) (type : CType) :
    Places s code (.temporary depth type) (.temporary depth type)

/-- Different variables have no byte in common. -/
def CScope.VariablesApart (s : CScope) (code : Array Instruction) : Prop :=
  ∀ v v' place place', s.Places code v place → s.Places code v' place' → v ≠ v' →
    place.Disjoint place'

section
variable {s : CScope} {code : Array Instruction} {v : CVar} {place : CPlace}

theorem CScope.Places.eq_temporary {depth : Nat} (h : s.Places code v (.temporary depth type)) :
    v = .temporary depth type := by
  cases h with
  | accessed there accesses => cases accesses.not_temporary.1
  | temporary => rfl

end

/-! ## Accesses to fields -/

namespace Registry

/-- The sites access a field of that key in the same way, and take it for the same. -/
def sameAccess : Site → Site → Bool
  | .field key inStaticRegion _ tag, .field key' inStaticRegion' _ tag' =>
    key != key' || inStaticRegion == inStaticRegion' && tag == tag'
  | _, _ => true

/-- All accesses to a field of one key take it in the same way. -/
def accessesAgree (r : Registry) : Bool :=
  r.methods.all fun m => r.methods.all fun m' => m.sites.all fun site =>
    m'.sites.all fun site' => sameAccess site site'

theorem accessesAgree_same {r : Registry} (h : r.accessesAgree = true) {m m' : CompiledMethod}
    (hm : m ∈ r.methods) (hm' : m' ∈ r.methods) {region' host' : Bool}
    (hsite : .field key region host tag ∈ m.sites)
    (hsite' : .field key region' host' tag' ∈ m'.sites) : region = region' ∧ tag = tag' := by
  unfold accessesAgree at h
  simp only [Array.all_eq_true'] at h
  have hsame := h m hm m' hm' _ hsite _ hsite'
  simpa [sameAccess] using hsame

section
variable {c : BuildContext} {start : MethodRef} {index : Nat} {r r' : Registry} {linked : Linked}
  (hentry : compileEntry c start {} = .ok index r) (hlink : link c r = .ok linked r')
  (hagree : r'.accessesAgree = true) {m : CompiledMethod} (hm : m ∈ r'.methods)
include hentry hlink hagree hm

/-- What is accessed in the static region has its slot there, and no slot of its key has another tag. -/
theorem static_of_agreed (hsite : .field key true host tag ∈ m.sites) :
    (∃ s ∈ linked.layout.statics, s.key = key) ∧
      ∀ s ∈ linked.layout.statics, s.key = key → s.tag = tag := by
  obtain ⟨fields, hserves, hrecorded, hused⟩ := serves_of_link hentry hlink
  refine ⟨?_, fun s hs hkey => ?_⟩
  · obtain ⟨f, hf, rfl⟩ := hrecorded m hm key true host tag hsite
    obtain ⟨m', hm', site, hsite', storage, -, rfl⟩ := hused f hf
    have hregion := (accessesAgree_same hagree hm hm' hsite hsite').1
    exact hserves.known f (List.mem_filter.2 ⟨Array.mem_toList_iff.2 hf, hregion.symm⟩)
  · obtain ⟨f, hf, hfkey, storage, hstorage, htag⟩ := hserves.used s hs
    obtain ⟨m', hm', site, hsite', storage', hstorage', rfl⟩ :=
      hused f (Array.mem_toList_iff.1 (List.mem_filter.1 hf).1)
    rw [hstorage, Except.ok.injEq] at hstorage'
    subst hstorage'
    rw [hfkey, hkey] at hsite'
    exact htag.trans (accessesAgree_same hagree hm hm' hsite hsite').2.symm

variable {t : TypeTables} {d : MethodDef} {body : Body} {l : Lowering} {ops : List LoweredOp}
  {value : Nat → Nat → LinkOperand → UInt16} (hinstalled : Installed c r' t m d body l ops value)
include hinstalled

theorem slot_of_static {i : Nat} {instruction : Instruction} {access : Access} {f : FieldRef}
    (hcode : body.code[i]? = some instruction) (hop : instruction.op = .field true access f)
    (hsite : m.sites[i]? = some (.field key region false tag))
    (hscalar : CType.ofTag? tag = some type)
    (hoffset : CEmitter.staticOffset ⟨r'.methods, c.builtins, some linked.layout, m⟩ key = .ok offset) :
    ∃ (n : Nat) (field : StaticField), linked.layout.statics[n]? = some field ∧ field.key = key ∧
      linked.layout.staticSlots.places[n]? = some ⟨field.offset.toNat, field.tag⟩ ∧
      CType.ofTag? field.tag = some type ∧ offset = field.offset + 1 := by
  obtain ⟨o, -, -, hsite', -, hlowers⟩ := hinstalled.exists_op hcode
  rw [hsite] at hsite'
  rw [hop] at hlowers
  cases hlowers with
  | plain hplain => cases hplain
  | field _ _ _ key' region' host' tag' id wide hregion _ =>
    cases hsite'
    obtain rfl : region = true := hregion rfl
    obtain ⟨⟨s, hs, hkey⟩, htags⟩ :=
      static_of_agreed hentry hlink hagree hm (Array.mem_of_getElem? hsite)
    cases hfound : linked.layout.staticField? key with
    | none => exact absurd hkey (by simpa using Array.find?_eq_none.1 hfound s hs)
    | some field =>
      obtain ⟨hmem, hfield⟩ := LayoutTable.staticField?_some hfound
      obtain ⟨n, hn, hplace⟩ := LayoutTable.getElem?_places hfound
      refine ⟨n, field, hn, hfield, hplace, by rw [htags field hmem hfield]; exact hscalar, ?_⟩
      simpa [CEmitter.staticOffset, LayoutTable.fieldOffset?, hfound] using hoffset.symm

/-- **Different variables of a method have no byte in common.** -/
theorem variablesApart (hargs : m.args.size < 65536) (hstatics : linked.layout.staticSize < 65536) :
    CScope.VariablesApart ⟨r'.methods, c.builtins, some linked.layout, m⟩ body.code := by
  have htiledArgs : m.args.areaSlots.Tiled := hinstalled.frame.tiled.1
  have htiledStatics : linked.layout.staticSlots.Tiled := by
    obtain ⟨fields, hserves, -⟩ := serves_of_link hentry hlink
    exact hserves.tiled
  intro v v' place place' h h' hne
  cases h with
  | temporary depth type =>
    refine CPlace.disjoint_temporary fun heq => hne ?_
    subst heq
    exact h'.eq_temporary.symm
  | @accessed i instruction _ _ type _ there accesses =>
    generalize hop : instruction.op = op at accesses
    cases h' with
    | temporary depth type' => cases accesses <;> exact CPlace.noConfusion
    | @accessed i' instruction' _ _ type' _ there' accesses' =>
      generalize hop' : instruction'.op = op' at accesses'
      cases accesses with
      | argument slot scalar =>
        cases accesses' with
        | argument slot' scalar' =>
          refine htiledArgs.payloads_apart hargs (SlotList.getElem?_places slot)
            (SlotList.getElem?_places slot') (fun heq => hne ?_) scalar scalar'
          rw [UInt16.toNat_inj.1 heq]
        | localVar _ _ | static _ _ _ => exact CPlace.noConfusion
      | localVar slot scalar =>
        cases accesses' with
        | localVar _ _ => exact fun heq => hne (by cases heq; rfl)
        | argument _ _ | static _ _ _ => exact CPlace.noConfusion
      | static site scalar offset =>
        cases accesses' with
        | static site' scalar' offset' =>
          obtain ⟨n, field, hn, hkey, hplace, htype, rfl⟩ :=
            slot_of_static hentry hlink hagree hm hinstalled there hop site scalar offset
          obtain ⟨n', field', hn', hkey', hplace', htype', rfl⟩ :=
            slot_of_static hentry hlink hagree hm hinstalled there' hop' site' scalar' offset'
          refine htiledStatics.payloads_apart hstatics hplace hplace' (fun heq => hne ?_) htype htype'
          rw [heq, hn', Option.some.injEq] at hn
          rw [← hkey, ← hkey', hn]
        | argument _ _ | localVar _ _ => exact CPlace.noConfusion

end

end Registry

end DeviceCode
