import TypedReads.Command.Run

/-!
# The command line

Reads the arguments of the process, looks at the files that the command line names, runs the
program over them, and writes what it leaves behind.
-/

namespace TypedReads

/-- The bytes of a text as the operating system takes them. -/
def bytesOf (t : Text) : ByteArray := ⟨t.toUtf8.toArray⟩

/-- What a path leads to. A path that the operating system has no name for leads nowhere. -/
def lookAt (path : Text) : IO FileEntry := do
  if path.contains 0 then return .unreachable
  match path.wellFormed.toString? with
  | none => return .unreachable
  | some "" => return .missing
  | some name =>
    try
      let bytes ← IO.FS.readBinFile name
      return .file bytes.toList
    catch
      | .noFileOrDirectory .. => return .missing
      | _ => return .unreachable

/-- Runs the program on arguments over the file system of the process. -/
def runOnDisk (arguments : List Text) : IO RunReport := do
  let paths :=
    match Invocation.parse arguments with
    | .ok i => i.paths
    | .error _ => []
  let entries ← paths.mapM fun path => return (path, ← lookAt path)
  return run (fun path => (entries.lookup path).getD .missing) arguments

end TypedReads

/-- Runs the program on the arguments of the process. -/
def main (args : List String) : IO UInt32 := do
  let report ← TypedReads.runOnDisk (args.map TypedReads.units)
  let stderr ← IO.getStderr
  (← IO.getStdout).write (TypedReads.bytesOf report.stdout)
  for line in report.logs do
    stderr.write (TypedReads.bytesOf (line ++ TypedReads.units "\n"))
  stderr.write (TypedReads.bytesOf report.stderr)
  return report.exitCode.toUInt32
