import DeviceCode.CUnit.Emitter

/-!
# Plans

A plan says what types the operands have at the entry of every instruction that can be reached. It
is found by following the walk of the stack profile: every instruction is written once on canonical
temporaries, and all ways into an instruction must agree on the types. A method that has a plan can
be written in C (`CFunction.ofPlan`).
-/

namespace DeviceCode

namespace CPlan

def labelsOf (code : Array Instruction) : Array Bool :=
  code.foldl (fun labels i =>
    i.op.targets.foldl (fun labels t => labels.setIfInBounds t true) labels)
    (Array.replicate code.size false)

def join (types : List CType) (entries : Array (Option (List CType))) (next : Nat) :
    Except CObstacle (Array (Option (List CType))) :=
  match entries[next]?.join with
  | none => .ok (entries.setIfInBounds next (some types))
  | some known => if known = types then .ok entries else .error (.typesDisagree next known types)

/-- Writes the visited instruction on its entry types and passes the types on to its successors. -/
def visit (s : CScope) (code : Array Instruction) (entries : Array (Option (List CType)))
    (v : Visit) : Except CObstacle (Array (Option (List CType))) := do
  match code[v.index]? with
  | none => return entries
  | some instruction =>
    let start : CEmitter := { stack := CEmitter.canonicalStack (entries[v.index]?.join.getD []) }
    let e ← start.step s v.index instruction.op (v.index + 1 == code.size)
    (instruction.op.successors v.index code.size).foldlM (join e.types) entries

def ofMethod (methods : Array CompiledMethod) (builtins : BuiltinTable) (method : CompiledMethod)
    (code : Array Instruction) : Except CObstacle CPlan := do
  let scope : CScope := { methods, builtins, layout := none, method }
  let start := (Array.replicate code.size none).setIfInBounds 0 (some [])
  let entries ← method.profile.order.foldlM (visit scope code) start
  return { entries, labels := labelsOf code }

end CPlan

namespace CFunction

/-- Writes the instruction at a position, if it can be reached. `live` tells whether control comes
from the instruction before it. At a label, and after a gap, the stack is canonical. -/
def writeInstruction (s : CScope) (plan : CPlan) (size : Nat) (state : CEmitter × Bool)
    (item : Instruction × Nat) : Except CObstacle (CEmitter × Bool) := do
  let (e, live) := state
  let (instruction, index) := item
  match plan.entry? index with
  | none => return (e, false)
  | some types =>
    let e :=
      if plan.isLabel index then
        let e := if live then e.materializeAll else e
        { e with stack := CEmitter.canonicalStack types }.write (.label index)
      else if live then e
      else { e with stack := CEmitter.canonicalStack types }
    let e ← e.step s index instruction.op (index + 1 == size)
    return (e, !instruction.op.endsFlow)

def declaredBefore (a b : Nat × CType) : Bool :=
  a.1 < b.1 || (a.1 == b.1 && a.2.rank ≤ b.2.rank)

def localDeclarations (m : CompiledMethod) : List (Nat × CType) :=
  m.locals.slots.toList.zipIdx.filterMap fun (slot, n) =>
    (CType.ofTag? slot.tag).map fun type => (n, type)

def returnType (m : CompiledMethod) : Option CType :=
  match m.ret with
  | some (.scalar tag _) => CType.ofTag? tag
  | some .reference => some .ptr
  | _ => none

def ofPlan (s : CScope) (index : Nat) (plan : CPlan) (code : Array Instruction) :
    Except CObstacle CFunction := do
  let (e, _) ← code.toList.zipIdx.foldlM (writeInstruction s plan code.size) ({}, true)
  return {
    index
    signature := s.method.name
    ret := returnType s.method
    locals := localDeclarations s.method
    temporaries := LayoutTable.sortBy declaredBefore e.temporaries
    body := e.body.toList }

end CFunction

namespace CUnit

/-- The functions of all methods that have a plan, in the order of their indices. -/
def ofMethods (c : BuildContext) (methods : Array CompiledMethod) (layout : LayoutTable) :
    Except CompileError CUnit := do
  let functions ← methods.toList.zipIdx.filterMapM fun (m, index) =>
    match m.cStatus.plan? with
    | none => pure none
    | some plan =>
      match (c.program.methodDef? m.method).bind (·.body) with
      | none => throw (CompileError.unresolvableReference "method body" m.name)
      | some body =>
        let scope : CScope :=
          { methods, builtins := c.builtins, layout := some layout, method := m }
        match CFunction.ofPlan scope index plan body.code with
        | .ok f => return some f
        | .error reason => throw (.nativeCodeRequired m.name reason.message)
  return { functions }

end CUnit

end DeviceCode
