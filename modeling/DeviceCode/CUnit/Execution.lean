import DeviceCode.CUnit.Evaluation

/-!
# Running C functions

How the functions of a unit run: `CUnit.run` gives the value that a function returns and what it
leaves in the argument area and in the static region. A run takes a bound on the statements.
-/

namespace DeviceCode

/-- What a run of a function leaves behind. -/
structure CResult where
  value : Option CNumber
  args : SlotArea
  statics : SlotArea
  deriving DecidableEq, Inhabited

namespace CFunction

def typeOf? (f : CFunction) : CPlace → Option CType
  | .argument type _ | .static type _ => some type
  | .localVar index => f.locals.lookup index.toNat
  | .temporary depth type => if f.temporaries.contains (depth, type) then some type else none

/-- The frame at the start: local variables are zero, and temporaries have no value. -/
def enter (f : CFunction) (args statics : SlotArea) : CFrame where
  args := args
  statics := statics
  vars := f.locals.map fun (index, type) =>
    (.localVar index.toUInt16, if type = .r4 then .float 0 else .int 0)

def assign (f : CFunction) (frame : CFrame) (place : CPlace) (x : CNumber) :
    Except CFault CFrame :=
  match f.typeOf? place with
  | some type => frame.set place type x
  | none => .error (.uninitialized place)

def behindLabel? (f : CFunction) (index : Nat) : Option (List CStmt) :=
  go f.body
where
  go : List CStmt → Option (List CStmt)
    | [] => none
    | .label i :: rest => if i = index then some rest else go rest
    | _ :: rest => go rest

def jump (f : CFunction) (index : Nat) : Except CFault (List CStmt) :=
  match f.behindLabel? index with
  | some rest => .ok rest
  | none => .error (.unknownLabel index)

def moveAll (f : CFunction) (frame : CFrame) (moves : List CMove) : Except CFault CFrame := do
  let values ← moves.mapM fun m => do (← m.value.eval frame).cast m.type
  (moves.zip values).foldlM (fun frame (m, x) =>
    f.assign frame (.temporary m.depth m.type) x) frame

def switchTarget? (targets : List Nat) : CNumber → Except CFault (Option Nat)
  | .int v => .ok (if v < 0 then none else targets[v.toInt.toNat]?)
  | .uint v => .ok targets[v.toNat]?
  | .float _ => .error .notAnInteger

def fill (frame : CFrame) (size : Nat) (args : List CArgument) : Except CFault SlotArea :=
  args.foldlM (fun area a => do
    let x ← (← a.value.eval frame).cast a.type
    let bytes := a.type.bytes x
    if a.offset.toNat + bytes.length ≤ area.size then return area.write a.offset.toNat bytes
    else throw (.outOfBounds (.argument a.type a.offset))) (Array.replicate size 0)

def returned (f : CFunction) (value : Option CNumber) : Except CFault (Option CNumber) :=
  match f.ret, value with
  | none, _ => .ok none
  | some type, some x => some <$> x.cast type
  | some _, none => .error .missingReturn

end CFunction

namespace CUnit

def function? (u : CUnit) (index : Nat) : Option CFunction :=
  u.functions.find? (·.index == index)

def exec (u : CUnit) : (fuel : Nat) → CFunction → CFrame → List CStmt → Except CFault CResult
  | 0, _, _, _ => .error .outOfFuel
  | _ + 1, f, frame, [] => do
    return { value := ← f.returned none, args := frame.args, statics := frame.statics }
  | n + 1, f, frame, s :: rest =>
    match s with
    | .label _ => exec u n f frame rest
    | .assign place value => do
      exec u n f (← f.assign frame place (← value.eval frame)) rest
    | .moveAll moves => do exec u n f (← f.moveAll frame moves) rest
    | .ret none => do
      return { value := ← f.returned none, args := frame.args, statics := frame.statics }
    | .ret (some value) => do
      let x ← value.eval frame
      return { value := ← f.returned (some x), args := frame.args, statics := frame.statics }
    | .goto target => do exec u n f frame (← f.jump target)
    | .gotoIf condition target => do
      if (← condition.eval frame).isTrue then exec u n f frame (← f.jump target)
      else exec u n f frame rest
    | .switch value targets => do
      match ← CFunction.switchTarget? targets (← value.eval frame) with
      | some target => exec u n f frame (← f.jump target)
      | none => exec u n f frame rest
    | .call result callee size args => do
      let area ← CFunction.fill frame size args
      match u.function? callee with
      | none => throw (.unknownFunction callee)
      | some g =>
        let r ← exec u n g (g.enter area frame.statics) g.body
        let frame := { frame with statics := r.statics }
        match result, r.value with
        | none, _ => exec u n f frame rest
        | some place, some x => exec u n f (← f.assign frame place x) rest
        | some _, none => throw .missingReturn

def run (u : CUnit) (fuel index : Nat) (args statics : SlotArea) : Except CFault CResult :=
  match u.function? index with
  | none => .error (.unknownFunction index)
  | some f => u.exec fuel f (f.enter args statics) f.body

end CUnit

end DeviceCode
