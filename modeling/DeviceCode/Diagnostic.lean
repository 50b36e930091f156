import DeviceCode.Text

/-!
# Diagnostics

A message about a build, with the place in the program that it is about, and its two written forms:
one line (`Diagnostic.display`) and a report of several lines (`Diagnostic.render`).
-/

namespace DeviceCode

inductive Severity where
  | error | warning | info
  deriving DecidableEq, Inhabited

structure Diagnostic where
  severity : Severity
  message : String
  /-- The signature of the method that the message is about. -/
  method : Option String := none
  /-- The position of the instruction in that method. -/
  instruction : Option Nat := none
  line : Option UInt32 := none
  help : Option String := none
  code : Option String := none
  deriving DecidableEq, Inhabited

def instructionLabel (index : Nat) : String := "IL_" ++ Text.hex 4 index

namespace Severity

def word : Severity → String
  | error => "error"
  | warning => "warning"
  | info => "info"

/-- The word for the severity in a report, where a remark is advice. -/
def reportWord : Severity → String
  | info => "advice"
  | s => s.word

end Severity

namespace Diagnostic

def location (d : Diagnostic) : Option String :=
  d.method.map fun method =>
    let at_ := match d.instruction with
      | some i => " at " ++ instructionLabel i
      | none => ""
    let line := match d.line with
      | some l => " (line " ++ toString l.toNat ++ ")"
      | none => ""
    "in " ++ method ++ at_ ++ line

def headline (d : Diagnostic) : String :=
  match d.location with
  | some place => d.message ++ " " ++ place
  | none => d.message

def display (d : Diagnostic) : String :=
  let code := match d.code with
    | some c => "[" ++ c ++ "]"
    | none => ""
  d.severity.word ++ code ++ ": " ++ d.headline

/-- The report: the headline, the severity, and the help and the code where there are any. -/
def render (d : Diagnostic) : String :=
  let help := match d.help with
    | some h => "diagnostic help: " ++ h ++ "\n"
    | none => ""
  let code := match d.code with
    | some c => "diagnostic code: " ++ c ++ "\n"
    | none => ""
  d.headline ++ "\n    Diagnostic severity: " ++ d.severity.reportWord ++ "\n" ++ help ++ code

def renderAll (ds : List Diagnostic) : String := String.join (ds.map render)

end Diagnostic

end DeviceCode
