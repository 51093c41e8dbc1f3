import BlockLang.Command.Report

/-!
# The command line

Reads the files that the command line names, and prints the report.
-/

open BlockLang

/-- Why reading failed. -/
def unreadable : IO.Error → Unreadable
  | .noFileOrDirectory _ _ _ => .notFound
  | .inappropriateType _ code _ => if code == 21 then .isDirectory else .notDirectory
  | .invalidArgument _ _ "name too long" => .nameTooLong
  | .permissionDenied _ _ _ => .other "Permission denied (os error 13)"
  | e => .other (toString e)

/-- The contents of a file, or the reason why it cannot be read. -/
def contentsOf (path : String) : IO (Except Unreadable String) := do
  try
    match String.fromUTF8? (← IO.FS.readBinFile path) with
    | some text => return .ok text
    | none => return .error (.other "stream did not contain valid UTF-8")
  catch e => return .error (unreadable e)

def main (args : List String) : IO UInt32 := do
  let paths := match Command.ofArgs args with
    | .ok c => c.files
    | .error _ => []
  let contents ← paths.mapM fun path => return (path, ← contentsOf path)
  let report := reportOn (fun path => (contents.lookup path).getD (.error .notFound)) args
  (← IO.getStdout).putStr report.out
  (← IO.getStderr).putStr report.err
  return report.exit.toUInt32
