import Reckoner.CommandLine.Run
import Reckoner.Source.Bytes

/-!
# The program

Reads the files that the command line names, runs it on them, and prints what it says.
-/

namespace Reckoner

/-- The bytes of an open file; a directory opens as well, but then cannot be read. -/
def readFile (handle : IO.FS.Handle) : IO Source := do
  try
    let content ← handle.readBinToEnd
    return .ofBytes content.toList
  catch _ =>
    return .ofListThen [] (.failed .ioError)

/-- Opens a file, if it can be opened. -/
def openFile (name : String) : IO (Option Source) := do
  try
    let handle ← IO.FS.Handle.mk name .read
    return some (← readFile handle)
  catch _ =>
    return none

end Reckoner

open Reckoner in
def main (arguments : List String) : IO UInt32 := do
  let names := CommandLine.fileNames arguments
  let opened ← names.mapM fun name => do return (name, ← openFile name)
  let files : Files := fun name => (opened.lookup name).join
  let outcome := CommandLine.run files arguments
  (← IO.getStdout).putStr outcome.output
  (← IO.getStderr).putStr outcome.errors
  return UInt32.ofNat outcome.status
