import Salvage.CommandLine

/-! # The program

Reads the files that the command line names, and prints what is recovered from them.
-/

namespace Salvage

/-- The content of a file, if it can be read. -/
def readContent (path : String) : IO (Option ByteArray) :=
  try
    return some (← IO.FS.readBinFile path)
  catch _ => return none

/-- The files among the arguments with their contents. -/
def readContents (paths : List String) : IO (List (String × Option ByteArray)) :=
  paths.mapM fun path => return (path, ← readContent path)

end Salvage

open Salvage in
def main (args : List String) : IO UInt32 := do
  let paths := match readArguments .initial args with
    | .ok i => i.paths
    | .error _ => []
  let contents ← readContents paths
  let report := runCommandLine args fun path => (contents.lookup path).join
  (← IO.getStdout).putStr report.output
  (← IO.getStderr).putStr report.errors
  return report.exitCode.toUInt32
