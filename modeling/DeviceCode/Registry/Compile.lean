import DeviceCode.CUnit.Plan
import DeviceCode.Registry.Lowering

/-!
# Compiling methods

`Registry.compileMethod` compiles a method for one choice of type arguments and all that it reaches.
A method takes its index before its body is lowered, so it may call itself, and it is compiled once:
the signature tells whether it is in the registry.
-/

namespace DeviceCode

namespace Op

def isSupported : Op → Bool
  | throw | leave _ | endFinally => false
  | _ => true

end Op

namespace CompileError

def ofProfile (name : String) (code : Array Instruction) : ProfileError → CompileError
  | .inconsistent index expected found => .inconsistentStack (point index) expected found
  | .underflow index pops depth =>
    let mnemonic := match code[index]? with
      | some i => i.op.mnemonic
      | none => "?"
    .stackUnderflow (point index) mnemonic pops depth
  | .targetOutOfRange index target => .branchOutOfRange (point index) target
where
  point (index : Nat) : CodePoint :=
    { method := name, offset := index, line := nearestLine code index }

end CompileError

namespace Registry

def checkSupported (name : String) (code : Array Instruction) : Except CompileError Unit :=
  match code.toList.zipIdx.find? fun (i, _) => !i.op.isSupported with
  | none => .ok ()
  | some (i, index) =>
    .error (.unsupportedInstruction
      { method := name, offset := index, line := nearestLine code index } i.op.mnemonic)

/-- Adds a slot for a value of the type. Structures need a layout. -/
def addSlot (p : Program) (area : SlotList) (type : TypeRef) : RegistryM SlotList := do
  let storage ← MonadExcept.ofExcept (Storage.ofType p type)
  if storage.valueClass.isSome then modify (addLayoutRoot type)
  MonadExcept.ofExcept (area.push storage)

def resultStorage (p : Program) (type : TypeRef) : RegistryM (Option Storage) := do
  let storage ← MonadExcept.ofExcept (Storage.ofResult p type)
  if (storage.bind (·.valueClass)).isSome then modify (addLayoutRoot type)
  return storage

/-- The types of the parameters, the local variables and the result of a method. -/
structure FrameTypes where
  params : List TypeRef
  locals : List TypeRef
  ret : TypeRef

def FrameTypes.of (m : MethodDef) (body : Body) (typeArgs : List TypeRef) : FrameTypes where
  params := m.params.map (·.substitute typeArgs)
  locals := body.locals.map (·.substitute typeArgs)
  ret := m.ret.substitute typeArgs

def FrameTypes.wide? (f : FrameTypes) : Option Primitive :=
  (f.params ++ f.locals ++ [f.ret]).findSome? TypeRef.wide?

/-- Takes the next index for a method: its slots are known and its body is not lowered. -/
def register (p : Program) (id : MethodId) (m : MethodDef) (body : Body) (typeArgs : List TypeRef)
    (name : String) : RegistryM Nat := do
  let types := FrameTypes.of m body typeArgs
  let receiver : SlotList ←
    if m.isStatic then pure {} else MonadExcept.ofExcept (SlotList.push {} .reference)
  let args ← types.params.foldlM (addSlot p) receiver
  let locals ← types.locals.foldlM (addSlot p) {}
  let ret ← resultStorage p types.ret
  let index := (← get).methods.size
  modify fun r => { r with methods := r.methods.push {
    name, method := id, typeArgs, args, locals, ret
    lines := body.code.map (·.line)
    requiresNative := m.requiresNative } }
  return index

def checkWide (policy : WidePolicy) (name : String) : Option Primitive → RegistryM Unit
  | none => pure ()
  | some p =>
    match policy with
    | .narrow => pure ()
    | .warn => modify fun r => { r with warnings := r.warnings.push {
        severity := .warning
        message := "64-bit " ++ p.name ++ " values are narrowed to 32 bits"
        method := some name
        code := some "D101" } }
    | .reject => throw (.rejectedWideValue name p.name)

/-- Plans the method for C, or notes why it cannot be written in C. -/
def decideC (builtins : BuiltinTable) (index : Nat) (code : Array Instruction) (r : Registry) :
    Registry :=
  match r.methods[index]? with
  | none => r
  | some m =>
    match CPlan.ofMethod r.methods builtins m code with
    | .ok plan => r.modifyMethod index fun m => { m with cStatus := .planned plan }
    | .error reason => r.block index reason

/-- Lowers the body of a registered method and completes its entry. -/
def complete (c : BuildContext) (compile : MethodId → List TypeRef → RegistryM Nat) (index : Nat)
    (m : CompiledMethod) (types : FrameTypes) (code : Array Instruction) : RegistryM Unit := do
  let effect := fun (_ : Nat) (op : Op) => op.effect (if m.ret.isSome then 1 else 0)
  let profile ← MonadExcept.ofExcept
    ((StackProfile.analyze code effect).mapError (CompileError.ofProfile m.name code))
  match word16? profile.maxDepth with
  | none => throw (.limitExceeded "operand stack" 65535)
  | some maxStack =>
    let lowering : Lowering := {
      context := c, compile, index, name := m.name, typeArgs := m.typeArgs
      args := m.args, locals := m.locals, code }
    let body ← lowering.lowerBody
    let chunks ← MonadExcept.ofExcept (lowering.assemble body)
    checkWide c.options.wideValues m.name (types.wide? <|> body.wide)
    modify fun r => r.modifyMethod index fun m =>
      { m with profile, maxStack, chunks, sites := body.sites, callees := body.callees }
    modify (decideC c.builtins index code)

/-- Compiles a method unless its signature is in the registry, and gives its index. Calls in its
body go through `compile`. -/
def compileWith (c : BuildContext) (compile : MethodId → List TypeRef → RegistryM Nat)
    (id : MethodId) (typeArgs : List TypeRef) : RegistryM Nat := do
  match c.program.methodDef? id with
  | none => throw (.unresolvableReference "method" ("#" ++ toString id.index))
  | some m =>
    let name := m.signature c.program typeArgs
    match (← get).methodIndex? name with
    | some index => return index
    | none =>
      match m.body with
      | none => throw (.unresolvableReference "method body" name)
      | some body =>
        MonadExcept.ofExcept (checkSupported name body.code)
        let index ← register c.program id m body typeArgs name
        match (← get).methods[index]? with
        | none => pure ()
        | some entry => complete c compile index entry (FrameTypes.of m body typeArgs) body.code
        return index

/-- Compiles a method and all that it reaches. `fuel` bounds how deep the calls nest. -/
def compileWithin (c : BuildContext) : (fuel : Nat) → MethodId → List TypeRef → RegistryM Nat
  | 0, _, _ => throw .unboundedInstantiation
  | n + 1, id, typeArgs => compileWith c (compileWithin c n) id typeArgs

/-- A bound on the nesting of calls to methods that are not yet in the registry. Only generic types
that contain ever larger instances of themselves can exceed it. -/
def callBound (p : Program) : Nat := p.methods.size + 65536

/-- Compiles a method for those type arguments, and all that it reaches. -/
def compileMethod (c : BuildContext) (id : MethodId) (typeArgs : List TypeRef) : RegistryM Nat :=
  compileWithin c (callBound c.program) id typeArgs

/-- Compiles the method where the program starts. If it runs on an object, the class of the object
has instances. -/
def compileEntry (c : BuildContext) (entry : MethodRef) : RegistryM Nat := do
  let resolved ← MonadExcept.ofExcept (c.program.resolveMethod entry)
  unless resolved.method.isStatic do
    modify (discoverClass c.program (.named resolved.method.declaring resolved.declaringArgs))
  compileMethod c resolved.id resolved.declaringArgs

end Registry

end DeviceCode
