import WordAssembler.Command.Run

/-!
# The command

The command line on the files of the machine it runs on.
-/

namespace WordAssembler.Command

def readText? (path : String) : IO (Option String) := do
  try
    return String.fromUTF8? (← IO.FS.readBinFile path)
  catch _ =>
    return none

def writeText (path content : String) : IO Bool := do
  try
    IO.FS.writeFile path content
    return true
  catch _ =>
    return false

def writeAll (closing : String) : List Writing → IO UInt32
  | [] => do
    IO.print closing
    return 0
  | file :: files => do
    IO.print file.announcement
    if ← writeText file.path file.content then
      writeAll closing files
    else
      IO.print file.refusal
      return 1

def performPlan : Plan → IO UInt32
  | .fail output => do
    IO.print output
    return 1
  | .write output files closing => do
    IO.print output
    writeAll closing files

end WordAssembler.Command

open WordAssembler

def main (commandLine : List String) : IO UInt32 := do
  match Arguments.parse commandLine with
  | .error refusal =>
    let (status, output) := Command.answer refusal
    IO.print output
    if refusal = .misuse then
      IO.eprintln "error: the arguments do not fit; see --help"
    return status.toUInt32
  | .ok arguments => do
    Command.performPlan (Plan.ofSource arguments (← Command.readText? arguments.input))
