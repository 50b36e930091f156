import DeviceCode.CommandLine

/-!
# The program

Reads the program that the command line names, performs the command and writes what it comes to.
-/

namespace DeviceCode

/-- Writes the files of a report, prints its lines and gives the exit code. -/
def Report.emit (r : Report) (out : String) : IO UInt32 := do
  IO.eprint r.remarks
  unless r.files.isEmpty do
    IO.FS.createDirAll out
    for (name, bytes) in r.files do
      IO.FS.writeBinFile (out ++ "/" ++ name) ⟨bytes.toArray⟩
  for line in r.lines do
    IO.println line
  match r.failure with
  | none => return 0
  | some reason =>
    IO.eprintln ("Error: " ++ reason)
    return 1

def Command.execute (c : Command) : IO UInt32 := do
  let bytes ← IO.FS.readBinFile c.program
  (c.perform bytes.data.toList).emit c.out

end DeviceCode

def main (args : List String) : IO UInt32 := do
  match DeviceCode.Command.parse args with
  | .ok command => command.execute
  | .error .help =>
    IO.println DeviceCode.UsageError.help.message
    return 0
  | .error e =>
    IO.eprintln e.message
    return 2
