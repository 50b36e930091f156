import DeviceCode.Diagnostic

/-!
# Compilation errors

Why a build fails. `CompileError.message` holds the wording and `CompileError.toDiagnostic` adds the
place, the help and the code of the error's class.
-/

namespace DeviceCode

/-- A position in a method body. -/
structure CodePoint where
  /-- The signature of the method. -/
  method : String
  offset : Nat
  line : Option UInt32
  deriving DecidableEq, Inhabited

inductive CompileError where
  | unsupportedInstruction (point : CodePoint) (instruction : String)
  | inconsistentStack (point : CodePoint) (expected found : Nat)
  | stackUnderflow (point : CodePoint) (instruction : String) (pops depth : Nat)
  | branchOutOfRange (point : CodePoint) (target : Nat)
  | unsatisfiedVirtualSlot (slot : String) (candidates : List String)
  | unresolvableReference (what name : String)
  | invalidHostField (field type : String)
  | limitExceeded (what : String) (limit : Nat)
  | nativeCodeRequired (method reason : String)
  | rejectedWideValue (method type : String)
  /-- Instantiating generic types gave rise to ever more types. -/
  | unboundedInstantiation
  /-- A method is linked although its body could not be lowered. -/
  | unfinishedMethod (method : String)
  deriving DecidableEq, Inhabited

/-- The classes of error, each with a code of its own. -/
inductive ErrorKind where
  | unsupportedInstruction | inconsistentStack | unsatisfiedVirtualSlot | unresolvableReference
  | invalidHostField | limitExceeded | nativeCodeRequired | rejectedWideValue
  deriving DecidableEq, Inhabited

def ErrorKind.code : ErrorKind → String
  | unsupportedInstruction => "D001"
  | inconsistentStack => "D002"
  | unsatisfiedVirtualSlot => "D003"
  | unresolvableReference => "D004"
  | invalidHostField => "D005"
  | limitExceeded => "D006"
  | nativeCodeRequired => "D007"
  | rejectedWideValue => "D008"

namespace CompileError

/-- All errors about the operand stack and the flow of control are of one class. -/
def kind : CompileError → ErrorKind
  | unsupportedInstruction _ _ => .unsupportedInstruction
  | inconsistentStack _ _ _ | stackUnderflow _ _ _ _ | branchOutOfRange _ _ => .inconsistentStack
  | unsatisfiedVirtualSlot _ _ => .unsatisfiedVirtualSlot
  | unresolvableReference _ _ | unfinishedMethod _ => .unresolvableReference
  | invalidHostField _ _ => .invalidHostField
  | limitExceeded _ _ | unboundedInstantiation => .limitExceeded
  | nativeCodeRequired _ _ => .nativeCodeRequired
  | rejectedWideValue _ _ => .rejectedWideValue

def message : CompileError → String
  | unsupportedInstruction p instruction =>
    "instruction `" ++ instruction ++ "` has no device mapping (" ++ p.method ++ " at " ++
      instructionLabel p.offset ++ ")"
  | inconsistentStack p expected found =>
    "inconsistent stack depth at " ++ instructionLabel p.offset ++ " in " ++ p.method ++
      ": reached with " ++ toString found ++ ", previously " ++ toString expected
  | stackUnderflow p instruction pops depth =>
    "stack underflow at " ++ instructionLabel p.offset ++ " in " ++ p.method ++ ": `" ++
      instruction ++ "` pops " ++ toString pops ++ " with depth " ++ toString depth
  | branchOutOfRange p target =>
    "branch at " ++ instructionLabel p.offset ++ " in " ++ p.method ++ " targets " ++
      instructionLabel target ++ ", outside the method"
  | unsatisfiedVirtualSlot slot _ =>
    "no referenced class implements virtual method " ++ slot
  | unresolvableReference what name => "cannot resolve " ++ what ++ " `" ++ name ++ "`"
  | invalidHostField field type =>
    "host field `" ++ field ++ "` has type " ++ type ++
      "; only primitives, primitive arrays and strings are allowed"
  | limitExceeded what limit => what ++ " exceeds the limit of " ++ toString limit
  | nativeCodeRequired method reason =>
    method ++ " must be translated to C but cannot be: " ++ reason
  | rejectedWideValue method type =>
    "64-bit " ++ type ++ " in " ++ method ++ " would be narrowed to 32 bits"
  | unboundedInstantiation => "generic types are instantiated without end"
  | unfinishedMethod method => method ++ " has no code to link"

def help : CompileError → Option String
  | unsatisfiedVirtualSlot _ (c :: cs) =>
    some ("these types implement it but are never instantiated: " ++ Text.join ", " (c :: cs))
  | limitExceeded "link iterations" _ =>
    some "raise `CompilationOptions::max_link_iterations`"
  | _ => none

def point? : CompileError → Option CodePoint
  | unsupportedInstruction p _ | inconsistentStack p _ _ | stackUnderflow p _ _ _
  | branchOutOfRange p _ => some p
  | _ => none

def method? : CompileError → Option String
  | nativeCodeRequired method _ | rejectedWideValue method _ => some method
  | e => e.point?.map (·.method)

def toDiagnostic (e : CompileError) : Diagnostic where
  severity := .error
  message := e.message
  method := e.method?
  instruction := e.point?.map (·.offset)
  line := e.point?.bind (·.line)
  help := e.help
  code := some e.kind.code

end CompileError

end DeviceCode
