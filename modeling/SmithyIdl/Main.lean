import SmithyIdl.CommandLine

/-!
# The program

Reads the file that the command line names, and prints what `SmithyIdl.CommandLine` decides.
-/

open SmithyIdl.CommandLine

/-- What reading a file gives. -/
def readContents (path : String) : IO FileContents := do
  try return .bytes (← IO.FS.readBinFile path)
  catch
    | .noFileOrDirectory .. => return .unreadable "No such file or directory (os error 2)"
    | e => return .unreadable (toString e)

def main (args : List String) : IO UInt32 := do
  let report ← match options? args with
    | some o => pure (report o (← readContents o.command.path))
    | none => pure usage
  (← IO.getStdout).putStr report.stdout
  (← IO.getStderr).putStr report.stderr
  return report.status.toUInt32
