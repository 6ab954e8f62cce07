import SchemeTyping.CommandLine.Run

/-!
# The program

Reads the source file if there is one, runs the command and prints its lines.  A command line that
cannot be understood is answered with the usage on the error output.
-/

set_option autoImplicit false

namespace SchemeTyping

/-- The contents of a file, if it can be read. -/
def fileContents? (name : String) : IO (Option String) :=
  tryCatch (some <$> IO.FS.readFile name) fun _ ↦ pure none

end SchemeTyping

open SchemeTyping in
/-- Runs the command line. -/
def main (args : List String) : IO UInt32 := do
  let builtIns ← IO.getEnv "BLOCKSCHEME_PRELUDE"
  let verbose ← IO.getEnv "BLOCKSCHEME_VERBOSE"
  let env (name : String) : Option String :=
    if name = "BLOCKSCHEME_PRELUDE" then builtIns
    else if name = "BLOCKSCHEME_VERBOSE" then verbose
    else none
  let invocation := CommandLine.parse env args
  let file ←
    match invocation.source? with
    | some source => fileContents? source
    | none => pure none
  let outcome := invocation.run file
  for line in outcome.lines do
    IO.println line
  if outcome.exit = 2 && outcome.lines.isEmpty then
    for line in CommandLine.usage do
      IO.eprintln line
  return outcome.exit.toUInt32
