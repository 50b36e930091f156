import DeviceCode.CUnit.Operand

/-!
# Writing a method in C, instruction by instruction

The emitter keeps the symbolic operand stack and the statements written so far. Loads and arithmetic
only build operands; stores, calls and jumps write statements. Before a variable changes, the
operands that read it are put into their temporaries, and at a jump the whole stack is.
-/

namespace DeviceCode

/-- What the emitter looks things up in. Offsets of static fields are not known before the link. -/
structure CScope where
  methods : Array CompiledMethod
  builtins : BuiltinTable
  layout : Option LayoutTable
  method : CompiledMethod

structure CEmitter where
  /-- The operands from the bottom of the stack up. -/
  stack : Array COperand := #[]
  body : Array CStmt := #[]
  /-- The temporaries in use, in the order of their first use. -/
  temporaries : List (Nat × CType) := []
  deriving Inhabited

namespace CEmitter

/-- The stack at a label: every operand in the temporary of its depth. -/
def canonicalStack (types : List CType) : Array COperand :=
  (types.zipIdx.map fun (type, depth) => COperand.temporary depth type).toArray

def types (e : CEmitter) : List CType := e.stack.toList.map (·.type)

def write (e : CEmitter) (s : CStmt) : CEmitter := { e with body := e.body.push s }

def push (e : CEmitter) (o : COperand) : CEmitter := { e with stack := e.stack.push o }

def pop (e : CEmitter) : Except CObstacle (COperand × CEmitter) :=
  match e.stack.back? with
  | some o => .ok (o, { e with stack := e.stack.pop })
  | none => .error .underflow

def popMany (e : CEmitter) (n : Nat) : Except CObstacle (List COperand × CEmitter) :=
  if e.stack.size < n then .error .underflow
  else
    let rest := e.stack.size - n
    .ok (e.stack.toList.drop rest, { e with stack := e.stack.take rest })

def useTemporary (e : CEmitter) (depth : Nat) (type : CType) : CEmitter :=
  if e.temporaries.contains (depth, type) then e
  else { e with temporaries := e.temporaries ++ [(depth, type)] }

def isCanonical (e : CEmitter) (depth : Nat) : Bool :=
  match e.stack[depth]? with
  | some o => o.isCanonical depth
  | none => true

def readsAt (e : CEmitter) (depth : Nat) (v : CVar) : Bool :=
  match e.stack[depth]? with
  | some o => o.reads.contains v
  | none => false

def assignTemporary (e : CEmitter) (depth : Nat) : CEmitter :=
  match e.stack[depth]? with
  | some o =>
    let e := (e.useTemporary depth o.type).write (.assign (.temporary depth o.type) o.expr)
    { e with stack := e.stack.setIfInBounds depth (COperand.temporary depth o.type) }
  | none => e

/-- Puts the operand at the depth into its temporary; operands that still read the old value of that
temporary go first. A chain of such operands is no longer than the stack. -/
def settle : (bound : Nat) → (depth : Nat) → CEmitter → Except CObstacle CEmitter
  | 0, _, _ => .error .cyclicOperands
  | n + 1, depth, e => do
    if e.isCanonical depth then return e
    match e.stack[depth]? with
    | none => return e
    | some o =>
      let target := CVar.temporary depth o.type
      let e ← (List.range e.stack.size).foldlM (fun e other =>
        if other ≠ depth && e.readsAt other target then settle n other e else .ok e) e
      if e.isCanonical depth then return e else return e.assignTemporary depth

def materialize (e : CEmitter) (depth : Nat) : Except CObstacle CEmitter :=
  settle (e.stack.size + 1) depth e

/-- Materializes the operands for which the test holds, from the bottom up. -/
def spill (e : CEmitter) (test : COperand → Bool) : Except CObstacle CEmitter :=
  (List.range e.stack.size).foldlM (fun e depth =>
    match e.stack[depth]? with
    | some o => if test o then e.materialize depth else .ok e
    | none => .ok e) e

def spillReaders (e : CEmitter) (v : CVar) : Except CObstacle CEmitter :=
  e.spill (·.reads.contains v)

def unsettled (e : CEmitter) : List Nat :=
  (List.range e.stack.size).filter (!e.isCanonical ·)

/-- One of the moves reads the temporary that another one writes. -/
def movesConflict (e : CEmitter) (moves : List Nat) : Bool :=
  moves.any fun d => moves.any fun other =>
    other ≠ d && match e.stack[other]? with
      | some o => e.readsAt d (.temporary other o.type)
      | none => false

/-- Puts the whole stack into temporaries, all at once where the moves depend on each other. -/
def materializeAll (e : CEmitter) : CEmitter :=
  let moves := e.unsettled
  if e.movesConflict moves then
    let block := moves.filterMap fun d => e.stack[d]?.map fun o => CMove.mk d o.type o.expr
    block.foldl (fun e m =>
      { e.useTemporary m.depth m.type with
        stack := e.stack.setIfInBounds m.depth (COperand.temporary m.depth m.type) })
      (e.write (.moveAll block))
  else moves.foldl assignTemporary e

/-- Takes the operand of a branch and settles the rest of the stack. The operand is kept in a
temporary if settling would change what it reads. -/
def branchOperand (e : CEmitter) : Except CObstacle (CExpr × CEmitter) := do
  let (cond, e) ← e.pop
  let clobbered := e.unsettled.any fun d =>
    match e.stack[d]? with
    | some o => cond.reads.contains (.temporary d o.type)
    | none => false
  if clobbered then
    let depth := e.stack.size
    let place := CPlace.temporary depth cond.type
    let e := ((e.useTemporary depth cond.type).write (.assign place cond.expr)).materializeAll
    return (.read place, e)
  else return (cond.expr, e.materializeAll)

/-! ## Accesses -/

def argument (s : CScope) (index : UInt16) : Except CObstacle (CPlace × CType) :=
  match s.method.args.get? index with
  | none => .error (.argumentOutOfRange index)
  | some slot =>
    match CType.ofTag? slot.tag with
    | none => .error (.argumentNotScalar index)
    | some type => .ok (.argument type (slot.offset + 1), type)

def localType (s : CScope) (index : UInt16) : Except CObstacle CType :=
  match s.method.locals.get? index with
  | none => .error (.localOutOfRange index)
  | some slot =>
    match CType.ofTag? slot.tag with
    | none => .error (.localNotScalar index)
    | some type => .ok type

def staticOffset (s : CScope) (key : String) : Except CObstacle UInt16 :=
  match s.layout with
  | none => .ok 0
  | some layout =>
    match layout.fieldOffset? key with
    | some offset => .ok (offset + 1)
    | none => .error (.staticWithoutSlot key)

def staticField (s : CScope) (index : Nat) (op : Op) :
    Except CObstacle (CPlace × CType × CVar) :=
  match s.method.sites[index]? with
  | some (.field key _ host tag) =>
    if host then .error (.hostField key)
    else
      match CType.ofTag? tag with
      | none => .error (.staticNotScalar key)
      | some type => do
        let offset ← staticOffset s key
        return (.static type offset, type, .static key)
  | _ => .error (.unsupported op.mnemonic)

/-- Stores the operand on top in a place, after the operands that read the place are out of the
way. -/
def store (e : CEmitter) (place : CPlace) (v : CVar) : Except CObstacle CEmitter := do
  let (value, e) ← e.pop
  let e ← e.spillReaders v
  return e.write (.assign place value.expr)

/-! ## Calls -/

def callBuiltin (s : CScope) (e : CEmitter) (id : UInt16) (pops : Nat) (ret : Option Storage) :
    Except CObstacle CEmitter := do
  match s.builtins.symbol? id with
  | none => throw (.builtinWithoutSymbol ((s.builtins.name? id).getD "?"))
  | some symbol =>
    if ret.isNone then throw (.builtinWithoutResult symbol.symbol)
    match CType.ofTag? symbol.ret with
    | none => throw (.builtinNotScalar symbol.symbol)
    | some native =>
      let (args, e) ← e.popMany pops
      if args.any (·.type = .ptr) then throw (.handleToBuiltin symbol.symbol)
      let expr := CExpr.call (.library symbol.symbol) (args.map (·.expr))
      return e.push (COperand.compound expr native args)

def resultType (m : CompiledMethod) : Except CObstacle (Option CType) :=
  match m.ret with
  | none => .ok none
  | some (.scalar tag _) =>
    match CType.ofTag? tag with
    | some type => .ok (some type)
    | none => .error (.returnsNonScalar m.name)
  | some .reference => .ok (some .ptr)
  | some _ => .error (.returnsStructure m.name)

def argumentSlots (m : CompiledMethod) : Except CObstacle (List (UInt16 × CType)) :=
  m.args.slots.toList.mapM fun slot =>
    match CType.ofTag? slot.tag with
    | some type => .ok (slot.offset + 1, type)
    | none => .error (.takesNonScalar m.name)

/-- A call of a method is a statement. It may change every static field, and its result goes into
the temporary at the top of the stack. -/
def callMethod (s : CScope) (e : CEmitter) (callee : Nat) : Except CObstacle CEmitter := do
  match s.methods[callee]? with
  | none => throw (.unknownMethod callee)
  | some target =>
    if let some reason := target.cStatus.reason? then throw (.callsBlocked target.name reason)
    let ret ← resultType target
    let slots ← argumentSlots target
    let (args, e) ← e.popMany slots.length
    let e ← e.spill (·.readsStatic)
    let filled := slots.zipWith (fun (offset, type) a => CArgument.mk offset type a.expr) args
    let size := max target.args.size 1
    match ret with
    | none => return e.write (.call none callee size filled)
    | some type =>
      let depth := e.stack.size
      let cls := type.stackClass
      let e ← e.spillReaders (.temporary depth cls)
      let e := e.useTemporary depth cls
      let e := e.write (.call (some (.temporary depth cls)) callee size filled)
      return e.push (COperand.temporary depth cls)

/-! ## Instructions -/

/-- Writes a return. At the end of a body a return without a value is left out. -/
def ret (s : CScope) (e : CEmitter) (last : Bool) : Except CObstacle CEmitter :=
  match s.method.ret with
  | some (.value _) | some .boxed | some .address => .error .structuredReturn
  | none => .ok (if last then e else e.write (.ret none))
  | some _ => do
    let (value, e) ← e.pop
    return e.write (.ret (some value.expr))

/-- Repeats the operand on top, which is put into a temporary first unless it is simple. -/
def dup (e : CEmitter) : Except CObstacle CEmitter :=
  match e.stack.back? with
  | none => .error .underflow
  | some o => do
    let e ← if o.simple then pure e else e.materialize (e.stack.size - 1)
    match e.stack.back? with
    | none => throw .underflow
    | some o => return e.push o

def unary (e : CEmitter) (f : COperand → Except CObstacle COperand) :
    Except CObstacle CEmitter := do
  let (a, e) ← e.pop
  return e.push (← f a)

def binary (e : CEmitter) (f : COperand → COperand → Except CObstacle COperand) :
    Except CObstacle CEmitter := do
  let (b, e) ← e.pop
  let (a, e) ← e.pop
  return e.push (← f a b)

def jumpIf (e : CEmitter) (sense : Bool) (target : Nat) : Except CObstacle CEmitter := do
  let (cond, e) ← e.branchOperand
  let test := if sense then cond else .unary .logicalNot (.paren cond)
  return e.write (.gotoIf test target)

def step (s : CScope) (index : Nat) (op : Op) (last : Bool) (e : CEmitter) :
    Except CObstacle CEmitter :=
  match op with
  | .nop => .ok e
  | .slot .arguments .load n => do
    let (place, type) ← argument s n
    return e.push (COperand.ofPlace place type (.argument n))
  | .slot .arguments .store n => do
    let (place, _) ← argument s n
    e.store place (.argument n)
  | .slot .locals .load n => do
    let type ← localType s n
    return e.push (COperand.ofPlace (.localVar n) type (.localVar n))
  | .slot .locals .store n => do
    let _ ← localType s n
    e.store (.localVar n) (.localVar n)
  | .const (.i4 v) => .ok (e.push (COperand.int v))
  | .const (.i8 v) => .ok (e.push (COperand.int v.toInt32))
  | .const (.r4 bits) => return e.push (← COperand.float bits)
  | .const (.r8 bits) => return e.push (← COperand.float (Binary32.ofBinary64 bits))
  | .null => .ok (e.push (COperand.literal .null .ptr))
  | .dup => e.dup
  | .pop => do
    let (_, e) ← e.pop
    return e
  | .ret => e.ret s last
  | .jump target => .ok (e.materializeAll.write (.goto target.toNat))
  | .jumpIf sense target => e.jumpIf sense target.toNat
  | .jumpCmp cmp isUnsigned target => do
    (← e.binary (COperand.compare cmp isUnsigned)).jumpIf true target.toNat
  | .switch targets => do
    let (value, e) ← e.branchOperand
    return e.write (.switch value (targets.map (·.toNat)))
  | .binary op => e.binary (COperand.binary op)
  | .neg => e.unary COperand.neg
  | .not => e.unary COperand.complement
  | .conv p => e.unary fun a =>
    match CType.ofTag? (Tag.ofPrimitive p) with
    | some type => a.convert type
    | none => .error (.unsupported op.mnemonic)
  | .convUnsignedToFloat => e.unary COperand.convertUnsigned
  | .compare relation isUnsigned => e.binary (COperand.compare relation.comparison isUnsigned)
  | .field true .load _ => do
    let (place, type, v) ← staticField s index op
    return e.push (COperand.ofPlace place type v)
  | .field true .store _ => do
    let (place, _, v) ← staticField s index op
    e.store place v
  | .call _ _ =>
    match s.method.sites[index]? with
    | some (.call (.builtin id) pops ret) => e.callBuiltin s id pops ret
    | some (.call (.user callee) _ _) => e.callMethod s callee
    | some (.call (.slot _) _ _) => .error .virtualDispatch
    | _ => .error (.unsupported op.mnemonic)
  | _ => .error (.unsupported op.mnemonic)

end CEmitter

end DeviceCode
