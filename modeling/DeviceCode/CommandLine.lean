import DeviceCode.Build
import DeviceCode.Machine
import DeviceCode.Wire.HostMap
import DeviceCode.Wire.Program

/-!
# The command line

What the arguments ask for (`Command.parse`) and what a command makes of the bytes of a program
(`Command.perform`): files, lines to print, and whether it failed.
-/

namespace DeviceCode

/-- What is asked for. -/
structure Command where
  /-- The file with the program. -/
  program : String
  /-- The entry method as `Namespace.Type.Method`. -/
  entry : String
  /-- The directory for the files. -/
  out : String := "out"
  options : BuildOptions := {}
  listing : Bool := false
  /-- The arguments of a run on the reference machine. -/
  run : Option (List Int32) := none
  deriving DecidableEq, Inhabited

inductive UsageError where
  /-- Help was asked for. -/
  | help
  | missing (what : List String)
  | unexpected (argument : String)
  | missingValue (option : String)
  | badValue (option value : String)
  deriving DecidableEq, Inhabited

namespace UsageError

def usage : String := "Usage: diverc [OPTIONS] --entry <ENTRY> <PROGRAM>"

def helpText : String :=
  Text.join "\n" [
    "Compile a serialized IR program into a device image and C unit",
    "",
    usage,
    "",
    "Arguments:",
    "  <PROGRAM>  Serialized program",
    "",
    "Options:",
    "  -e, --entry <ENTRY>                  Entry method as `Namespace.Type.Method`",
    "  -o, --out <OUT>                      Output directory [default: out]",
    "      --scan-interval <SCAN_INTERVAL>  Scan interval recorded in the image header " ++
      "[default: 1000]",
    "      --wide <WIDE>                    What to do with 64-bit values [default: warn] " ++
      "[possible values: narrow, warn, reject]",
    "      --no-c                           Skip the C translation unit",
    "      --builtin <BUILTINS>             Extra runtime-library signatures, appended to the " ++
      "builtin table",
    "      --listing                        Write the debug listing and address map",
    "      --run [<RUN>...]                 Run the entry once on the reference interpreter " ++
      "with these i32 arguments",
    "  -h, --help                           Print help"]

def message : UsageError → String
  | help => helpText
  | missing what =>
    "error: the following required arguments were not provided:" ++
      String.join (what.map ("\n  " ++ ·)) ++ "\n\n" ++ usage ++ hint
  | unexpected argument =>
    "error: unexpected argument '" ++ argument ++ "' found\n\n" ++ usage ++ hint
  | missingValue option =>
    "error: a value is required for '" ++ option ++ "' but none was supplied" ++ hint
  | badValue option value => "error: invalid value '" ++ value ++ "' for '" ++ option ++ "'" ++ hint
where
  hint : String := "\n\nFor more information, try '--help'."

end UsageError

/-! ## Arguments -/

/-- What has been found among the arguments. -/
structure Arguments where
  program : Option String := none
  entry : Option String := none
  out : Option String := none
  options : BuildOptions := {}
  listing : Bool := false
  run : Option (List Int32) := none
  /-- Plain arguments are values for the run. -/
  inRun : Bool := false
  /-- The option whose value comes next. -/
  awaiting : Option String := none

namespace Arguments

def natural? (s : String) : Option Nat :=
  let cs := s.toList
  if cs.isEmpty || !cs.all Char.isDigit then none
  else some (cs.foldl (fun n c => 10 * n + (c.toNat - '0'.toNat)) 0)

def integer? (s : String) : Option Int :=
  match s.toList with
  | '-' :: cs => (natural? (String.ofList cs)).map fun n => -(n : Int)
  | '+' :: cs => (natural? (String.ofList cs)).map Int.ofNat
  | _ => (natural? s).map Int.ofNat

def int32? (s : String) : Option Int32 := do
  let n ← integer? s
  if -2147483648 ≤ n ∧ n ≤ 2147483647 then some (Int32.ofInt n) else none

def splitCommas (cs : List Char) : List (List Char) :=
  cs.foldr (fun c parts =>
    match c, parts with
    | ',', _ => [] :: parts
    | c, [] => [[c]]
    | c, part :: rest => (c :: part) :: rest) [[]]

def addRun (a : Arguments) (value : String) : Except UsageError Arguments := do
  let values ← (splitCommas value.toList).mapM fun part =>
    match int32? (String.ofList part) with
    | some n => .ok n
    | none => .error (.badValue "--run [<RUN>...]" (String.ofList part))
  return { a with run := some (a.run.getD [] ++ values) }

def valueOption? : String → Option String
  | "-e" | "--entry" => some "--entry <ENTRY>"
  | "-o" | "--out" => some "--out <OUT>"
  | "--scan-interval" => some "--scan-interval <SCAN_INTERVAL>"
  | "--wide" => some "--wide <WIDE>"
  | "--builtin" => some "--builtin <BUILTINS>"
  | _ => none

def setValue (a : Arguments) (shown value : String) : Except UsageError Arguments :=
  match shown with
  | "--entry <ENTRY>" => .ok { a with entry := some value }
  | "--out <OUT>" => .ok { a with out := some value }
  | "--scan-interval <SCAN_INTERVAL>" =>
    match (natural? value).bind word32? with
    | some n => .ok { a with options := { a.options with scanInterval := n } }
    | none => .error (.badValue shown value)
  | "--wide <WIDE>" =>
    let policy := match value with
      | "narrow" => some WidePolicy.narrow
      | "warn" => some .warn
      | "reject" => some .reject
      | _ => none
    match policy with
    | some p => .ok { a with options := { a.options with wideValues := p } }
    | none => .error (.badValue shown value)
  | _ =>
    .ok { a with options := { a.options with
      extraBuiltins := a.options.extraBuiltins ++ [value] } }

def isOption (argument : String) : Bool := argument.startsWith "-" && argument != "-"

def addPlain (a : Arguments) (argument : String) : Except UsageError Arguments :=
  match argument with
  | "-h" | "--help" => .error .help
  | "--no-c" => .ok { a with options := { a.options with emitC := false }, inRun := false }
  | "--listing" => .ok { a with listing := true, inRun := false }
  | "--run" => .ok { a with run := some (a.run.getD []), inRun := true }
  | _ =>
    if isOption argument then .error (.unexpected argument)
    else if a.inRun then a.addRun argument
    else if a.program.isNone then .ok { a with program := some argument }
    else .error (.unexpected argument)

def splitOption (argument : String) : String × Option String :=
  let cs := argument.toList
  if argument.startsWith "--" && cs.contains '=' then
    (String.ofList (cs.takeWhile (· != '=')),
      some (String.ofList ((cs.dropWhile (· != '=')).drop 1)))
  else (argument, none)

def add (a : Arguments) (argument : String) : Except UsageError Arguments :=
  match a.awaiting with
  | some shown =>
    if isOption argument then .error (.missingValue shown)
    else { a with awaiting := none }.setValue shown argument
  | none =>
    match splitOption argument with
    | ("--run", some value) => { a with inRun := true }.addRun value
    | (name, value?) =>
      match valueOption? name, value? with
      | some shown, some value => { a with inRun := false }.setValue shown value
      | some shown, none => .ok { a with awaiting := some shown, inRun := false }
      | none, some _ => .error (.unexpected name)
      | none, none => a.addPlain name

/-- Takes in all arguments; no option may be left without its value. -/
def collect (args : List String) : Except UsageError Arguments := do
  let a ← args.foldlM add {}
  match a.awaiting with
  | some shown => throw (.missingValue shown)
  | none => return a

end Arguments

def Command.parse (args : List String) : Except UsageError Command := do
  let a ← Arguments.collect args
  match a.entry, a.program with
  | some entry, some program =>
    return { program, entry, out := a.out.getD "out", options := a.options, listing := a.listing
             run := a.run }
  | entry, program =>
    throw (.missing ((if entry.isNone then ["--entry <ENTRY>"] else []) ++
      (if program.isNone then ["<PROGRAM>"] else [])))

/-! ## Commands -/

/-- What a command comes to. -/
structure Report where
  /-- Remarks on the way. -/
  remarks : String := ""
  /-- Files for the output directory, by name. -/
  files : List (String × List UInt8) := []
  /-- Lines to print. -/
  lines : List String := []
  /-- Why the command failed. -/
  failure : Option String := none
  deriving DecidableEq, Inhabited

namespace Command

def valueText : Value → String
  | .i4 v => "I4(" ++ toString v.toInt ++ ")"
  | .r4 bits => "R4(" ++ Binary32.text bits ++ ")"
  | .null => "Null"

def resultText : Option Value → String
  | some v => "returned Some(" ++ valueText v ++ ")"
  | none => "returned None"

def files (c : Command) (b : Build) : List (String × List UInt8) :=
  [("program.bin", b.bytes)] ++
    b.cUnit.toList.map (fun u => ("program.c", Text.utf8 u.text)) ++
    [("fieldmap.bin", b.hostMap.toBytes)] ++
    if c.listing then
      [("program.lst", Text.utf8 b.listing.text), ("program.map", Text.utf8 b.listing.addressMap)]
    else []

def summary (b : Build) : String :=
  toString b.stats.methods ++ " methods (" ++ toString b.stats.inC ++ " in C), " ++
    toString b.stats.classes ++ " classes, " ++ toString b.stats.imageBytes ++ " bytes"

def runBuild (b : Build) (builtins : BuiltinTable) (args : List Int32) : Except String String :=
  match LoadedImage.read b.bytes.toArray with
  | .error e => .error e.message
  | .ok image =>
    match ((Machine.ofImage image builtins {}).runEntry (args.map Value.i4)).1 with
    | .error e => .error ("execution failed: " ++ e.message)
    | .ok outcome => .ok (resultText outcome.ret)

def reportBuild (c : Command) (b : Build) (builtins : BuiltinTable) : Report :=
  let report : Report :=
    { remarks := Diagnostic.renderAll b.warnings, files := c.files b, lines := [summary b] }
  match c.run with
  | none => report
  | some args =>
    match runBuild b builtins args with
    | .ok line => { report with lines := report.lines ++ [line] }
    | .error reason => { report with failure := some reason }

def perform (c : Command) (bytes : List UInt8) : Report :=
  match Program.ofBytes bytes with
  | .error e => { failure := some ("decoding program: " ++ e.message) }
  | .ok program =>
    match program.findMethod c.entry >>= program.methodRef with
    | .error _ => { failure := some ("no method `" ++ c.entry ++ "` in the program") }
    | .ok entry =>
      let context : BuildContext := { program, options := c.options }
      match context.build entry with
      | .error e =>
        { remarks := e.toDiagnostic.render, failure := some "compilation failed" }
      | .ok b => c.reportBuild b context.builtins

end Command

end DeviceCode
