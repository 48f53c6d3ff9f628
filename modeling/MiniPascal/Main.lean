import MiniPascal.Command

/-!
The program on the command line.
-/

set_option autoImplicit false
set_option relaxedAutoImplicit false

namespace MiniPascal

/-- The text of a file, if it can be read and is UTF-8. -/
def readTextFile (path : String) : IO (Option String) := do
  try
    return String.fromUTF8? (← IO.FS.readBinFile path)
  catch _ => return none

end MiniPascal

open MiniPascal

def main (arguments : List String) : IO UInt32 := do
  let response ← (Command.read arguments).respond readTextFile
  IO.print response.output
  IO.eprint response.complaint
  return response.code.toUInt32
