import DeviceCode.Dispatch
import DeviceCode.Registry.Compile

/-!
# Linking

Every virtual slot is bound to the classes that implement it, storage is laid out, and every operand
that waits for the link gets its value.

Binding a class to a slot compiles the method that it runs, which can bring up more classes and
slots: the pairs of slot and class still to be looked at are a queue (`BindQueue`), and the build
gives up after a number of pairs.
-/

namespace DeviceCode

/-- What the link decides. -/
structure Linked where
  layout : LayoutTable
  descriptors : DescriptorTable
  /-- The pairs of slot and class that were looked at. -/
  iterations : Nat
  fixupsApplied : Nat
  deriving DecidableEq, Inhabited

/-- The pairs of slot and class still to be looked at, and how many slots and classes have been put
into pairs. -/
structure BindQueue where
  pairs : List (Nat × Nat) := []
  slots : Nat := 0
  classes : Nat := 0

namespace BindQueue

/-- Adds the pairs that new slots and new classes bring: every new slot with every class, then every
new class with every slot that was there before. -/
def extend (q : BindQueue) (slots classes : Nat) : BindQueue :=
  let ofSlots := (List.range' q.slots (slots - q.slots)).flatMap fun slot =>
    (List.range classes).map fun c => (slot, c)
  let ofClasses := (List.range' q.classes (classes - q.classes)).flatMap fun c =>
    (List.range q.slots).map fun slot => (slot, c)
  match ofSlots ++ ofClasses with
  | [] => { q with slots, classes }
  | new => { pairs := q.pairs ++ new, slots, classes }

end BindQueue

namespace Registry

/-! ## Binding -/

/-- Binds the class to the slot, if it implements it and is not bound to it. -/
def bind (c : BuildContext) (slotIndex classIndex : Nat) : RegistryM Unit := do
  match (← get).slots[slotIndex]?, (← get).classes[classIndex]? with
  | some slot, some (key, type) =>
    match ← MonadExcept.ofExcept (slot.implementation c.program type) with
    | none => pure ()
    | some (id, args) =>
      unless slot.implementors.any (·.1 == key) do
        let index ← compileMethod c id args
        modify fun r => { r with slots := r.slots.modify slotIndex fun s =>
          { s with implementors := s.implementors ++ [(key, index)] } }
  | _, _ => pure ()

/-- Looks at pairs until none is left, and gives the number of those that remained of the bound. -/
def bindPairs (c : BuildContext) : (bound : Nat) → BindQueue → RegistryM Nat
  | 0, q => do
    let r ← get
    match (q.extend r.slots.size r.classes.size).pairs with
    | [] => return 0
    | _ :: _ => throw (.limitExceeded "link iterations" c.options.maxLinkIterations)
  | n + 1, q => do
    let r ← get
    let q := q.extend r.slots.size r.classes.size
    match q.pairs with
    | [] => return n + 1
    | (slotIndex, classIndex) :: rest =>
      bind c slotIndex classIndex
      bindPairs c n { q with pairs := rest }

/-- Binds all slots, each of which needs a class that implements it, and gives the number of pairs
that were looked at. -/
def bindSlots (c : BuildContext) : RegistryM Nat := do
  let remaining ← bindPairs c c.options.maxLinkIterations {}
  match (← get).slots.find? (·.implementors.isEmpty) with
  | none => return c.options.maxLinkIterations - remaining
  | some slot =>
    let candidates ← MonadExcept.ofExcept (slot.candidates c.program)
    throw (.unsatisfiedVirtualSlot slot.key candidates)

/-! ## Methods that cannot be written in C -/

def isBlocked (r : Registry) (index : Nat) : Bool :=
  match r.methods[index]? with
  | some m => m.cStatus.isBlocked
  | none => false

/-- The first method that the method calls and that cannot be written in C. -/
def blockedCallee? (r : Registry) (m : CompiledMethod) : Option CompiledMethod :=
  (m.callees.find? r.isBlocked).bind fun callee => r.methods[callee]?

/-- Blocks the method if it calls a blocked one; tells whether anything changed. -/
def blockCaller (state : Registry × Bool) (index : Nat) : Registry × Bool :=
  let (r, changed) := state
  match r.methods[index]? with
  | none => (r, changed)
  | some m =>
    if m.cStatus.isBlocked then (r, changed)
    else match r.blockedCallee? m with
      | none => (r, changed)
      | some callee => (r.block index (.reachesBlocked callee.name), true)

/-- Goes through the methods until nothing changes. Every round but the last blocks a method, so a
bound beyond the number of methods is never used up. -/
def blockCallersWithin : (bound : Nat) → Registry → Registry
  | 0, r => r
  | n + 1, r =>
    match (List.range r.methods.size).foldl blockCaller (r, false) with
    | (r', true) => blockCallersWithin n r'
    | (r', false) => r'

/-- Blocks every method that calls a blocked one, directly or through others. -/
def blockCallers (r : Registry) : Registry := blockCallersWithin (r.methods.size + 1) r

def checkNative (r : Registry) : Except CompileError Unit :=
  match r.methods.findSome? fun m =>
    if m.requiresNative then m.cStatus.reason?.map fun reason => (m.name, reason) else none with
  | none => .ok ()
  | some (name, reason) => .error (.nativeCodeRequired name reason.message)

/-! ## Storage -/

def describeStatics (p : Program) (statics : List StaticField) : TypeTablesM Unit :=
  statics.zipIdx.forM fun (f, index) => do
    let id ← TypeTables.ensure p f.type
    modify fun t => { t with layout := t.layout.setStaticDescriptor index id }

/-- The structures in the slots of all methods must have a layout. -/
def checkStructs (layout : LayoutTable) (methods : List CompiledMethod) :
    Except CompileError Unit :=
  let keys := methods.flatMap fun m =>
    (m.args.slots.toList ++ m.locals.slots.toList).filterMap (·.valueClass)
  match keys.find? fun key => (layout.classId? key).isNone with
  | none => .ok ()
  | some key => .error (.unresolvableReference "struct layout" key)

def tables (c : BuildContext) (r : Registry) : Except CompileError TypeTables := do
  let roots := r.classes.toList.map (·.2) ++ r.layoutRoots.toList
  let layout ← LayoutTable.build c.program r.fields.toList roots
  match (describeStatics c.program layout.statics.toList).run { layout } with
  | .error e _ => throw e
  | .ok _ t =>
    checkStructs t.layout r.methods.toList
    return t

/-! ## Operands -/

def operandWord (what : String) (index : Nat) : Except CompileError UInt16 :=
  if index < 65535 then .ok index.toUInt16 else .error (.limitExceeded what 65534)

def known {α : Type} (what name : String) : Option α → Except CompileError α
  | some a => .ok a
  | none => .error (.unresolvableReference what name)

/-- The value of an operand that waited for the link. Descriptors are built on first use. -/
def operandValue (p : Program) (r : Registry) : LinkOperand → TypeTablesM UInt16
  | .classId key => do
    let id ← MonadExcept.ofExcept (known "class layout" key ((← get).layout.classId? key))
    MonadExcept.ofExcept (operandWord "class table" id)
  | .descriptorId type => TypeTables.ensure p type
  | .fieldOffset key => do
    MonadExcept.ofExcept (known "field slot" key ((← get).layout.fieldOffset? key))
  | .dispatchIndex key => do
    let index ← MonadExcept.ofExcept (known "virtual slot" key (r.slotIndex? key))
    MonadExcept.ofExcept (operandWord "dispatch table" index)

/-- The chunk of an operand must be there: the method was lowered. -/
def checkSite (f : Fixup) (r : Registry) : Except CompileError Unit :=
  match r.methods[f.method]? with
  | none => .error (.unfinishedMethod ("#" ++ toString f.method))
  | some m => if f.chunk < m.chunks.size then .ok () else .error (.unfinishedMethod m.name)

def patch (f : Fixup) (value : UInt16) (r : Registry) : Registry :=
  r.modifyMethod f.method fun m =>
    { m with chunks := m.chunks.modify f.chunk fun chunk => chunk.patch f.position value }

def applyFixup (p : Program) (t : TypeTables) (f : Fixup) : RegistryM TypeTables := do
  match (operandValue p (← get) f.operand).run t with
  | .error e _ => throw e
  | .ok value t' =>
    MonadExcept.ofExcept (checkSite f (← get))
    modify (patch f value)
    return t'

def applyFixups (p : Program) (t : TypeTables) : RegistryM (TypeTables × Nat) := do
  let fixups := (← get).fixups
  modify fun r => { r with fixups := #[] }
  let t ← fixups.foldlM (applyFixup p) t
  return (t, fixups.size)

def link (c : BuildContext) : RegistryM Linked := do
  let iterations ← bindSlots c
  modify blockCallers
  MonadExcept.ofExcept (checkNative (← get))
  let tables ← MonadExcept.ofExcept ((← get).tables c)
  let (tables, fixupsApplied) ← applyFixups c.program tables
  return { layout := tables.layout, descriptors := tables.descriptors, iterations, fixupsApplied }

end Registry

end DeviceCode
