import AdaSupport.Link.CommandLine

/-!
# The executable

The command line on the machine at hand. The file that a command names is read before the command
runs. Other programs are not started from here: every tool is reported as not found.
-/

namespace AdaSupport.Link.CommandLine

/-- The cause for which a file could not be read. -/
def causeOf : IO.Error → SystemError
  | .permissionDenied _ _ _ => .permissionDenied
  | .inappropriateType _ code _ => if code = 20 then .notADirectory else .isADirectory
  | .invalidArgument _ 36 _ => .nameTooLong
  | _ => .notFound

/-- The bytes of a file. -/
def readFile (path : Bytes) : IO (Except ReadError Bytes) := do
  if 0 ∈ path then return .error .zeroInName
  try
    let contents ← IO.FS.readBinFile (Utf8.display path)
    return .ok contents.toList
  catch e => return .error (.system (causeOf e))

/-- The file that a command reads. -/
def inputOf : Arguments.Command → Bytes
  | .entry input => input
  | .link job => job.input
  | _ => []

/-- What is printed when the arguments are not understood. -/
def usage : String :=
  "Usage: " ++ name ++ " entry <INPUT>\n       " ++ name ++
    " link [-o OUTPUT] [--entry NAME] [--runtime PATH] [--skip-runtime-build] [--cc CC] <INPUT>\n"

/-- Print a reply and give the exit status. -/
def finish : Reply → IO UInt32
  | .usage => do
    (← IO.getStderr).putStr usage
    return 2
  | .finished code output errors _ => do
    (← IO.getStdout).putStr output
    (← IO.getStderr).putStr errors
    return code.toUInt32

end AdaSupport.Link.CommandLine

open AdaSupport AdaSupport.Link AdaSupport.Link.CommandLine in
/-- Run the command line. -/
def main (arguments : List String) : IO UInt32 := do
  let compiler ← IO.getEnv "ADALINK_CC"
  let command := Arguments.parse (arguments.map Utf8.bytes) (compiler.map Utf8.bytes)
  let contents ← readFile (inputOf command)
  let host : Host := ⟨"linux", fun _ => contents, fun _ _ => .error (.system .notFound)⟩
  finish (perform host command)
