import AdaSupport.Bytes.Utf8
import AdaSupport.Link.Host
import AdaSupport.Path
import AdaSupport.Quoted

/-!
# Link errors

* `Error`: the causes for which linking fails.
* `Error.message`: an error in a sentence.
* `Error.detail`: an error with all its parts, texts quoted.
-/

namespace AdaSupport.Link

/-- What went wrong with a tool. -/
inductive ToolError where
  /-- The compiler could not be asked for its version. -/
  | missing (e : StartError)
  | notStarted (e : StartError)
  | failed (s : Status)
  /-- Building the support library failed. -/
  | buildFailed (s : Status)
  deriving DecidableEq, Repr

/-- What went wrong, in words. -/
def ToolError.message : ToolError → String
  | .missing e => "not found. Please install LLVM/clang: " ++ e.message
  | .notStarted e => "could not execute: " ++ e.message
  | .failed s => "exited with status: " ++ s.message
  | .buildFailed s => "runtime build exited with status: " ++ s.message

/-- A reason why linking failed. -/
inductive Error where
  | unreadable (path : Bytes) (e : ReadError)
  | noEntry (path : Bytes)
  | invalidPath (path : Bytes) (fault : Path.Fault)
  | invalidName (name : String)
  | tool (name : String) (e : ToolError)
  deriving DecidableEq, Repr

/-- An error in a sentence. -/
def Error.message : Error → String
  | .unreadable path e => "Failed to access " ++ Utf8.display path ++ ": " ++ e.message
  | .noEntry path => "No main procedure found in " ++ Utf8.display path
  | .invalidPath path fault => "Invalid path '" ++ Utf8.display path ++ "': " ++ fault.reason
  | .invalidName name => "Invalid entry procedure name '" ++ name ++ "'"
  | .tool name e => name ++ " failed: " ++ e.message

/-! ## All parts of an error -/

/-- The cause of a read error with all its parts. -/
def ReadError.detail : ReadError → String
  | .system e =>
    "Os \x7b code: " ++ toString e.code ++ ", kind: " ++ e.kind ++ ", message: " ++
      Quoted.text e.text ++ " \x7d"
  | .zeroInName =>
    "Error \x7b kind: InvalidInput, message: " ++ Quoted.text (ReadError.message .zeroInName) ++
      " \x7d"
  | .notText =>
    "Error \x7b kind: InvalidData, message: " ++ Quoted.text (ReadError.message .notText) ++ " \x7d"

/-- An error with all its parts. -/
def Error.detail : Error → String
  | .unreadable path e =>
    "Io \x7b path: " ++ Quoted.path path ++ ", source: " ++ e.detail ++ " \x7d"
  | .noEntry path => "NoEntryProcedure \x7b path: " ++ Quoted.path path ++ " \x7d"
  | .invalidPath path fault =>
    "InvalidPath \x7b path: " ++ Quoted.text (Utf8.display path) ++ ", reason: " ++
      Quoted.text fault.reason ++ " \x7d"
  | .invalidName name => "InvalidEntryName(" ++ Quoted.text name ++ ")"
  | .tool name e =>
    "ToolFailed \x7b tool: " ++ Quoted.text name ++ ", message: " ++ Quoted.text e.message ++
      " \x7d"

end AdaSupport.Link
