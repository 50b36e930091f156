import DeviceCode.Builtin
import DeviceCode.Machine.Decoder
import DeviceCode.Machine.Library
import DeviceCode.Machine.SlotArea

/-!
# The reference machine

An interpreter for the part of the instruction set that works on scalars. `Machine.step` runs one
instruction and `Machine.execute` a number of them; calls are frames on a stack of their own. The
static region outlives a run, also one that fails.
-/

namespace DeviceCode

/-- A position in the code of a method. -/
structure CodeAddress where
  method : Nat
  offset : Nat
  deriving DecidableEq, Inhabited

inductive RunError where
  | unsupported (opcode : String) (place : CodeAddress)
  /-- The code ends inside an instruction. -/
  | truncated (place : CodeAddress)
  | stackUnderflow (place : CodeAddress)
  | stackOverflow (place : CodeAddress)
  | badSlot (method slot : Nat)
  | typeMismatch (place : CodeAddress)
  | divideByZero (place : CodeAddress)
  | noSuchMethod (index : Nat)
  | unknownBuiltin (name : String)
  | stepLimit (limit : Nat)
  | callDepth (limit : Nat)
  | argumentCount (expected found : Nat)
  deriving DecidableEq, Inhabited

namespace RunError

def offsetText (p : CodeAddress) : String := "0x" ++ Text.hex 4 p.offset

def placeText (p : CodeAddress) : String :=
  "method " ++ toString p.method ++ " at " ++ offsetText p

def message : RunError → String
  | unsupported opcode p =>
    "opcode " ++ opcode ++ " is not supported by the reference machine (" ++ placeText p ++ ")"
  | truncated p =>
    "code of method " ++ toString p.method ++ " ends inside the instruction at " ++ offsetText p
  | stackUnderflow p => "operand stack underflow in " ++ placeText p
  | stackOverflow p => "operand stack overflow in " ++ placeText p
  | badSlot method slot =>
    "no scalar slot at offset " ++ toString slot ++ " (method " ++ toString method ++ ")"
  | typeMismatch p => "operand type mismatch in " ++ placeText p
  | divideByZero p => "division by zero in " ++ placeText p
  | noSuchMethod index => "no method with index " ++ toString index
  | unknownBuiltin name => "runtime method " ++ name ++ " is not available in the reference machine"
  | stepLimit limit => "step limit of " ++ toString limit ++ " exceeded"
  | callDepth limit => "call depth limit of " ++ toString limit ++ " exceeded"
  | argumentCount expected found =>
    "method expects " ++ toString expected ++ " arguments, got " ++ toString found

end RunError

def OperandFault.toRunError (p : CodeAddress) : OperandFault → RunError
  | typeMismatch => .typeMismatch p
  | divideByZero => .divideByZero p
  | unknownOperation => .unsupported Opcode.arith.name p

structure ExecutionLimits where
  /-- How many calls may be active. -/
  maxDepth : Nat := 256
  /-- How many instructions a run may take; none for no limit. -/
  maxSteps : Option Nat := some 1000000
  deriving DecidableEq, Inhabited

/-- The instructions that a run can take when there is no limit: the counter has 64 bits. -/
def ExecutionLimits.stepBound (l : ExecutionLimits) : Nat := l.maxSteps.getD 18446744073709551616

structure Machine where
  image : LoadedImage
  builtins : BuiltinTable
  limits : ExecutionLimits
  /-- The static region. -/
  statics : SlotArea

/-- The result of a run. -/
structure Outcome where
  ret : Option Value
  /-- The arguments after the run. -/
  args : SlotArea
  deriving DecidableEq, Inhabited

/-- A method that runs. -/
structure Frame where
  method : Nat
  pc : Nat
  args : SlotArea
  locals : SlotArea
  /-- The operands; the last one is the top. -/
  stack : Array Value
  deriving DecidableEq, Inhabited

/-- A frame that waits for the call at `site` to return. -/
structure Caller where
  frame : Frame
  site : Nat
  deriving DecidableEq, Inhabited

/-- The frame that runs, those that wait for it, the latest first, and the static region. -/
structure MachineState where
  frame : Frame
  callers : List Caller
  statics : SlotArea
  deriving DecidableEq, Inhabited

/-- What an instruction does. -/
inductive Effect where
  /-- The frame goes on. -/
  | next (f : Frame) (statics : SlotArea)
  /-- The frame waits for a call. -/
  | call (f : Frame) (callee : Nat) (args : SlotArea)
  /-- The frame is done. -/
  | ret (value : Option Value) (args : SlotArea)

/-- Where a run stands after an instruction. -/
inductive Progress where
  | running (s : MachineState)
  | returned (outcome : Outcome) (statics : SlotArea)
  | failed (e : RunError) (statics : SlotArea)

namespace Frame

def enter (index : Nat) (m : LoadedMethod) (args : SlotArea) : Frame where
  method := index
  pc := 0
  args := args
  locals := SlotArea.ofSlots m.locals
  stack := #[]

def push (f : Frame) (maxStack : UInt16) (place : CodeAddress) (v : Value) :
    Except RunError Frame :=
  if maxStack.toNat ≤ f.stack.size then .error (.stackOverflow place)
  else .ok { f with stack := f.stack.push v }

def pop (f : Frame) (place : CodeAddress) : Except RunError (Value × Frame) :=
  match f.stack.back? with
  | none => .error (.stackUnderflow place)
  | some v => .ok (v, { f with stack := f.stack.pop })

def pop₂ (f : Frame) (place : CodeAddress) : Except RunError (Value × Value × Frame) := do
  let (b, f) ← f.pop place
  let (a, f) ← f.pop place
  return (a, b, f)

def popMany (f : Frame) (place : CodeAddress) (n : Nat) : Except RunError (List Value × Frame) :=
  if f.stack.size < n then .error (.stackUnderflow place)
  else
    let rest := f.stack.size - n
    .ok ((f.stack.extract rest f.stack.size).toList, { f with stack := f.stack.take rest })

def load (f : Frame) (area : Area) (slot : Nat) : Except RunError Value :=
  let bytes := match area with
    | .arguments => f.args
    | .locals => f.locals
  match bytes.load slot with
  | some v => .ok v
  | none => .error (.badSlot f.method slot)

def store (f : Frame) (area : Area) (slot : Nat) (v : Value) : Except RunError Frame :=
  let stored := match area with
    | .arguments => (f.args.store slot v).map fun args => { f with args }
    | .locals => (f.locals.store slot v).map fun locals => { f with locals }
  match stored with
  | some f => .ok f
  | none => .error (.badSlot f.method slot)

end Frame

namespace Machine

/-- A machine with an image; the static region is as the image describes it. -/
def ofImage (image : LoadedImage) (builtins : BuiltinTable) (limits : ExecutionLimits) :
    Machine where
  image := image
  builtins := builtins
  limits := limits
  statics := SlotArea.ofStatics image.statics

def readStatic (m : Machine) (offset : Nat) : Option Value := m.statics.load offset

/-- The machine with a value in a static slot; none if there is no such slot. -/
def writeStatic (m : Machine) (offset : Nat) (v : Value) : Option Machine :=
  (m.statics.store offset v).map fun statics => { m with statics }

/-! ## Steps -/

/-- Puts the values into the argument slots of a method, in order. -/
def fillArguments (index : Nat) (slots : List SlotRecord) (values : List Value) :
    Except RunError SlotArea :=
  ((SlotArea.slotOffsets slots).zip values).foldlM (fun area (offset, v) =>
    match area.store offset v with
    | some area => .ok area
    | none => .error (.badSlot index offset)) (SlotArea.ofSlots slots)

def operand {α : Type} (place : CodeAddress) (x : Except OperandFault α) : Except RunError α :=
  x.mapError (OperandFault.toRunError place)

/-- The target that a switch selects; the next instruction if the table is too short. -/
def switchTarget (code : Array UInt8) (table count next : Nat) (v : Int32) : Nat :=
  let index := v.toUInt32.toNat
  if index < count then ((MachineOp.wordAt? code (table + 2 * index)).getD 0).toNat else next

def callBuiltin (m : Machine) (place : CodeAddress) (id : UInt16) (maxStack : UInt16) (f : Frame) :
    Except RunError Frame :=
  match m.builtins.get? id with
  | none => .error (.unknownBuiltin ("#" ++ toString id.toNat))
  | some b => do
    let (values, f) ← f.popMany place (Library.arity b.signature)
    let floatResult := b.native.any (·.ret == .f32)
    match Library.call b.signature floatResult values with
    | none => throw (.unknownBuiltin b.signature)
    | some v => f.push maxStack place v

/-- Runs a decoded instruction of the method. The program counter of the frame is behind the
instruction. -/
def perform (m : Machine) (method : LoadedMethod) (place : CodeAddress) (f : Frame)
    (statics : SlotArea) (op : MachineOp) : Except RunError Effect := do
  match op with
  | .nop => return .next f statics
  | .load area slot =>
    let v ← f.load area slot
    return .next (← f.push method.maxStack place v) statics
  | .store area slot =>
    let (v, f) ← f.pop place
    return .next (← f.store area slot v) statics
  | .const v => return .next (← f.push method.maxStack place v) statics
  | .dup =>
    match f.stack.back? with
    | none => throw (.stackUnderflow place)
    | some v => return .next (← f.push method.maxStack place v) statics
  | .pop =>
    let (_, f) ← f.pop place
    return .next f statics
  | .ret =>
    if method.retTag = voidTag then return .ret none f.args
    else
      let (v, f) ← f.pop place
      return .ret (some v) f.args
  | .jump target => return .next { f with pc := target } statics
  | .jumpIf sense target =>
    let (v, f) ← f.pop place
    return .next (if v.isTruthy = sense then { f with pc := target } else f) statics
  | .jumpTest test target =>
    let (a, b, f) ← f.pop₂ place
    let taken ← operand place (Value.branchTest test a b)
    return .next (if taken then { f with pc := target } else f) statics
  | .switch table count =>
    let (v, f) ← f.pop place
    let n ← operand place v.expectInt
    return .next { f with pc := switchTarget method.code table count f.pc n } statics
  | .binary kind =>
    let (a, b, f) ← f.pop₂ place
    let v ← operand place (Value.binary kind a b)
    return .next (← f.push method.maxStack place v) statics
  | .neg =>
    let (v, f) ← f.pop place
    let v ← operand place v.neg
    return .next (← f.push method.maxStack place v) statics
  | .complement =>
    let (v, f) ← f.pop place
    let v ← operand place v.complement
    return .next (← f.push method.maxStack place v) statics
  | .convert conversion =>
    let (v, f) ← f.pop place
    let v ← operand place (v.convert conversion)
    return .next (← f.push method.maxStack place v) statics
  | .compare test =>
    let (a, b, f) ← f.pop₂ place
    let holds ← operand place (Value.valueTest test a b)
    return .next (← f.push method.maxStack place (Value.ofBool holds)) statics
  | .loadStatic slot =>
    match statics.load slot with
    | none => throw (.badSlot place.method slot)
    | some v => return .next (← f.push method.maxStack place v) statics
  | .storeStatic slot =>
    let (v, f) ← f.pop place
    match statics.store slot v with
    | none => throw (.badSlot place.method slot)
    | some statics => return .next f statics
  | .call callee =>
    match m.image.methods[callee]? with
    | none => throw (.noSuchMethod callee)
    | some target =>
      let (values, f) ← f.popMany place target.args.length
      return .call f callee (← fillArguments callee target.args values)
  | .callBuiltin id => return .next (← m.callBuiltin place id method.maxStack f) statics
  | .unsupported opcode => throw (.unsupported opcode place)

def invoke (m : Machine) (index : Nat) (args : SlotArea) (callers : List Caller)
    (statics : SlotArea) : Progress :=
  if m.limits.maxDepth ≤ callers.length then .failed (.callDepth m.limits.maxDepth) statics
  else
    match m.image.methods[index]? with
    | none => .failed (.noSuchMethod index) statics
    | some method => .running { frame := Frame.enter index method args, callers, statics }

/-- Returns from a method: the result is an operand of the caller, or that of the run. -/
def returnTo (m : Machine) (callers : List Caller) (value : Option Value)
    (args statics : SlotArea) : Progress :=
  match callers, value with
  | [], _ => .returned { ret := value, args } statics
  | c :: callers, none => .running { frame := c.frame, callers, statics }
  | c :: callers, some v =>
    let maxStack := match m.image.methods[c.frame.method]? with
      | some method => method.maxStack
      | none => 0
    match c.frame.push maxStack { method := c.frame.method, offset := c.site } v with
    | .error e => .failed e statics
    | .ok frame => .running { frame, callers, statics }

def step (m : Machine) (s : MachineState) : Progress :=
  let { frame, callers, statics } := s
  match m.image.methods[frame.method]? with
  | none => .failed (.noSuchMethod frame.method) statics
  | some method =>
    let place : CodeAddress := { method := frame.method, offset := frame.pc }
    match MachineOp.decode? method.code frame.pc with
    | none => .failed (.truncated place) statics
    | some (op, next) =>
      match m.perform method place { frame with pc := next } statics op with
      | .error e => .failed e statics
      | .ok (.next frame statics) => .running { frame, callers, statics }
      | .ok (.ret value args) => m.returnTo callers value args statics
      | .ok (.call frame callee args) =>
        m.invoke callee args ({ frame, site := place.offset } :: callers) statics

def execute (m : Machine) : (bound : Nat) → Progress → Except RunError Outcome × SlotArea
  | _, .returned outcome statics => (.ok outcome, statics)
  | _, .failed e statics => (.error e, statics)
  | 0, .running s => (.error (.stepLimit m.limits.stepBound), s.statics)
  | n + 1, .running s => execute m n (m.step s)

/-! ## Runs -/

/-- Runs a method on its arguments; for a method of an object, the object comes first. -/
def run (m : Machine) (index : Nat) (args : List Value) : Except RunError Outcome × Machine :=
  match m.image.methods[index]? with
  | none => (.error (.noSuchMethod index), m)
  | some method =>
    if method.args.length ≠ args.length then
      (.error (.argumentCount method.args.length args.length), m)
    else
      match fillArguments index method.args args with
      | .error e => (.error e, m)
      | .ok area =>
        let (outcome, statics) := m.execute m.limits.stepBound (m.invoke index area [] m.statics)
        (outcome, { m with statics })

def runEntry (m : Machine) (args : List Value) : Except RunError Outcome × Machine :=
  let offset := m.image.header.entryOffset
  match m.image.methodAt? offset with
  | none => (.error (.noSuchMethod offset.toNat), m)
  | some index => m.run index args

end Machine

end DeviceCode
